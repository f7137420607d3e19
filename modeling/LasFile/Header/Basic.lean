import LasFile.Format
import LasFile.Transform

/-!
# File headers

The public header block of a file. Versions 1.0 to 1.2 share one form, 1.3 adds the place of
waveform data and 1.4 the extended records and sixty-four bit point counts. The older thirty-two bit
counts are kept beside them, or are zeros throughout.
-/

namespace LasFile

/-- A bit field of statements on the whole file. -/
structure GlobalEncoding where
  value : UInt16
  deriving DecidableEq, Repr, Inhabited

namespace GlobalEncoding

def hasBit (e : GlobalEncoding) (mask : UInt16) : Bool := e.value &&& mask == mask

/-- What GPS times count: the week's seconds, or seconds of an adjusted standard time. -/
def gpsTime (e : GlobalEncoding) : String :=
  if e.hasBit 1 then "SatelliteGpsTime" else "GpsWeekTime"

def waveformInternal (e : GlobalEncoding) : Bool := e.hasBit 2

def waveformExternal (e : GlobalEncoding) : Bool := e.hasBit 4

/-- Whether return numbers were made up. -/
def returnsSynthetic (e : GlobalEncoding) : Bool := e.hasBit 8

/-- How the coordinate system is stated. -/
def crsMethod (e : GlobalEncoding) : String :=
  if e.hasBit 16 then "WellKnownText" else "GeoTiff"

end GlobalEncoding

/-- The identifier of a project in its four parts. -/
structure ProjectId where
  part1 : UInt32
  part2 : UInt16
  part3 : UInt16
  part4 : Vector UInt8 8
  deriving DecidableEq, Repr

def ProjectId.zero : ProjectId := ⟨0, 0, 0, .replicate 8 0⟩

structure Version where
  major : UInt8
  minor : UInt8
  deriving DecidableEq, Repr, Inhabited

namespace Version

/-- Bytes of the header. -/
def headerSize (minor : UInt8) : UInt16 :=
  if minor ≤ 2 then 227 else if minor = 3 then 235 else 375

/-- Whether the header has the place of waveform data. -/
def hasWaveform (v : Version) : Bool := 3 ≤ v.minor

/-- Whether the header has extended records and sixty-four bit counts. -/
def isExtended (v : Version) : Bool := 4 ≤ v.minor

end Version

/-- A day of a year. -/
structure CreationDate where
  day : UInt16
  year : UInt16
  deriving DecidableEq, Repr, Inhabited

structure Header where
  signature : String
  sourceId : UInt16
  encoding : GlobalEncoding
  projectId : ProjectId
  version : Version
  systemId : String
  software : String
  created : CreationDate
  headerSize : UInt16
  offsetToPoints : UInt32
  vlrCount : UInt32
  /-- The point format together with its compression bits. -/
  formatByte : UInt8
  recordLength : UInt16
  legacyPoints : UInt32
  legacyByReturn : Vector UInt32 5
  scaling : Scaling
  max : Axes Double
  min : Axes Double
  waveformStart : UInt64
  evlrOffset : UInt64
  evlrCount : UInt32
  points : UInt64
  byReturn : Vector UInt64 15
  deriving DecidableEq, Repr

namespace Header

/-- The first four bytes of every file. -/
def fileSignature : String := "LASF"

/-- The software named in new files. -/
def softwareId : String := "las_codec 0.1.0"

/-- Hundredths without offset. -/
def hundredth : Transform := ⟨.ofRatio false 1 100, .zero⟩

/-- The header that nothing was said about. -/
def blank : Header where
  signature := fileSignature
  sourceId := 0
  encoding := ⟨0⟩
  projectId := .zero
  version := ⟨1, 2⟩
  systemId := ""
  software := ""
  created := ⟨0, 0⟩
  headerSize := Version.headerSize 2
  offsetToPoints := 227
  vlrCount := 0
  formatByte := 0
  recordLength := 20
  legacyPoints := 0
  legacyByReturn := .replicate 5 0
  scaling := .replicate hundredth
  max := .replicate .zero
  min := .replicate .zero
  waveformStart := 0
  evlrOffset := 0
  evlrCount := 0
  points := 0
  byReturn := .replicate 15 0

instance : Inhabited Header := ⟨blank⟩

/-- The header of a new file. -/
def create (created : CreationDate) (format minor : UInt8) (scaling : Scaling) : Header :=
  { blank with
    version := ⟨1, minor⟩
    software := softwareId
    created
    headerSize := Version.headerSize minor
    offsetToPoints := (Version.headerSize minor).toUInt32
    formatByte := format
    recordLength := .ofNat (((FormatLayout.ofNumber? format).map (·.baseSize)).getD 0)
    scaling }

/-- The bits of the format byte that mark compressed points. -/
def compressionMask : UInt8 := 0xC0

/-- The point format without compression bits. -/
def format (h : Header) : UInt8 := h.formatByte &&& ~~~compressionMask

def isCompressed (h : Header) : Bool := h.formatByte &&& compressionMask != 0

/-- The number of points. The wider field counts where the version has it and it is not zero. -/
def pointCount (h : Header) : UInt64 :=
  if h.version.isExtended && h.points != 0 then h.points else h.legacyPoints.toUInt64

/-- Whether the older fields are used. They have no place for return numbers past five, and are not
used with formats that need version 1.4. The counts of the first five return numbers are not tested:
they do not exceed the total if they were counted with it. -/
def fitsLegacy (h : Header) (count : UInt64) (byReturn : Vector UInt64 15) : Bool :=
  h.format < 6 && count.toNat < UInt32.size && (byReturn.toList.drop 5).all (· == 0)

/-- The header with the number of points and of points by return number set. -/
def withPointCounts (h : Header) (count : UInt64) (byReturn : Vector UInt64 15) : Header :=
  let h := { h with points := count, byReturn }
  if h.fitsLegacy count byReturn then
    { h with
      legacyPoints := count.toUInt32
      legacyByReturn := .ofFn fun i ↦ (byReturn.get (i.castLE (by decide))).toUInt32 }
  else { h with legacyPoints := 0, legacyByReturn := .replicate 5 0 }

/-! ## Equality of values -/

/-- All numbers with a fraction in the header. -/
def doubles (h : Header) : List Double :=
  (h.scaling.map Transform.scale).toList ++ (h.scaling.map Transform.offset).toList ++
    h.max.toList ++ h.min.toList

/-- The header with all of these set to zero. -/
def withoutDoubles (h : Header) : Header :=
  { h with
    scaling := .replicate ⟨.zero, .zero⟩
    max := .replicate .zero
    min := .replicate .zero }

/-- Equality in which numbers with a fraction are compared by value. -/
def ieeeEq (a b : Header) : Bool :=
  a.withoutDoubles == b.withoutDoubles &&
    (List.zipWith Double.ieeeEq a.doubles b.doubles).all (·)

end Header

end LasFile
