import LasFile.Byte.Reader
import LasFile.Byte.Writer
import LasFile.Header.Basic

/-!
# Header bytes

`Header.items` is the layout of a header and `Header.read` reads one. A header is written with the
size of its version and only with the fields that its version has; what a version has no field for
is taken over from the older counts when it is read.
-/

namespace LasFile

namespace Header

def projectIdItems (p : ProjectId) : List Item :=
  [.u32 p.part1, .u16 p.part2, .u16 p.part3, .bytes p.part4.toList]

/-- One number for each axis. -/
def axesItems (a : Axes Double) : List Item := a.toList.map .double

/-- The bounds of each axis, the larger first. -/
def boundsItems (max min : Axes Double) : List Item :=
  [.double max.x, .double min.x, .double max.y, .double min.y, .double max.z, .double min.z]

/-- The fields that every version has. -/
def commonItems (h : Header) : List Item :=
  [.text fileSignature 4, .u16 h.sourceId, .u16 h.encoding.value] ++
    projectIdItems h.projectId ++
    [.u8 h.version.major, .u8 h.version.minor, .text h.systemId 32, .text h.software 32,
      .u16 h.created.day, .u16 h.created.year, .u16 (Version.headerSize h.version.minor),
      .u32 h.offsetToPoints, .u32 h.vlrCount, .u8 h.formatByte, .u16 h.recordLength,
      .u32 h.legacyPoints] ++
    h.legacyByReturn.toList.map .u32 ++
    axesItems (h.scaling.map Transform.scale) ++
    axesItems (h.scaling.map Transform.offset) ++
    boundsItems h.max h.min

/-- The fields of version 1.4. -/
def extendedItems (h : Header) : List Item :=
  [.u64 h.evlrOffset, .u32 h.evlrCount, .u64 h.points] ++ h.byReturn.toList.map .u64

/-- The layout of a header. -/
def items (h : Header) : List Item :=
  h.commonItems ++
    (if h.version.hasWaveform then [.u64 h.waveformStart] else []) ++
    (if h.version.isExtended then h.extendedItems else [])

/-- The bytes of a header. -/
def encode (h : Header) : Bytes := Item.encodeAll .little h.items

/-! ## Reading -/

def readProjectId : Read ProjectId := do
  let part1 ← Read.u32
  let part2 ← Read.u16
  let part3 ← Read.u16
  let part4 ← Read.times Read.u8 8
  return { part1, part2, part3, part4 }

def readAxes : Read (Axes Double) := do
  let x ← Read.double
  let y ← Read.double
  let z ← Read.double
  return { x, y, z }

/-- Reads the larger and the smaller bounds. -/
def readBounds : Read (Axes Double × Axes Double) := do
  let maxX ← Read.double
  let minX ← Read.double
  let maxY ← Read.double
  let minY ← Read.double
  let maxZ ← Read.double
  let minZ ← Read.double
  return (⟨maxX, maxY, maxZ⟩, ⟨minX, minY, minZ⟩)

/-- Reads the fields that every version has. Signature and version are checked on the way. -/
def readCommon : Read Header := do
  let signature ← Read.text 4
  unless signature = fileSignature do throw (.file (.signature signature))
  let sourceId ← Read.u16
  let encoding ← GlobalEncoding.mk <$> Read.u16
  let projectId ← readProjectId
  let major ← Read.u8
  let minor ← Read.u8
  if major ≠ 1 ∨ 4 < minor then throw (.file (.version major minor))
  let systemId ← Read.text 32
  let software ← Read.text 32
  let day ← Read.u16
  let year ← Read.u16
  let headerSize ← Read.u16
  let offsetToPoints ← Read.u32
  let vlrCount ← Read.u32
  let formatByte ← Read.u8
  let recordLength ← Read.u16
  let legacyPoints ← Read.u32
  let legacyByReturn ← Read.times Read.u32 5
  let scale ← readAxes
  let offset ← readAxes
  let (max, min) ← readBounds
  return {
    blank with
    signature, sourceId, encoding, projectId
    version := ⟨major, minor⟩
    systemId, software
    created := ⟨day, year⟩
    headerSize, offsetToPoints, vlrCount, formatByte, recordLength, legacyPoints, legacyByReturn
    scaling := Scaling.of scale offset
    max, min }

/-- The older counts of points by return number, followed by zeros. -/
def widened (counts : Vector UInt32 5) : Vector UInt64 15 :=
  .ofFn fun i ↦ ((counts.toList.map UInt32.toUInt64)[i.val]?).getD 0

/-- Reads the counts of version 1.4, or takes over the older ones. -/
def readCounts (h : Header) : Read Header := do
  if h.version.isExtended then
    let evlrOffset ← Read.u64
    let evlrCount ← Read.u32
    let points ← Read.u64
    let byReturn ← Read.times Read.u64 15
    return { h with evlrOffset, evlrCount, points, byReturn }
  else
    return { h with
      points := h.legacyPoints.toUInt64
      byReturn := widened h.legacyByReturn }

/-- Reads a header from the beginning of the source. -/
def read : Read Header := do
  Read.seek 0
  let h ← readCommon
  let waveformStart ← if h.version.hasWaveform then Read.u64 else pure 0
  let h ← readCounts { h with waveformStart }
  if h.headerSize < Version.headerSize h.version.minor then
    throw (.file (.headerSize h.headerSize h.version.minor))
  return h

/-- The header at the beginning of some bytes. -/
def decode (bs : Bytes) : Except Error Header := Read.decode read bs

end Header

end LasFile
