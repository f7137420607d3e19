import LasFile.Header.Basic
import LasFile.Number.Decimal

/-!
# Header listings

The lines in which a header is shown.
-/

namespace LasFile

/-- A number in hexadecimal, with zeros in front up to a width. -/
def hexadecimal (width n : Nat) : String :=
  let digits := Nat.toDigits 16 n
  String.ofList (List.replicate (width - digits.length) '0' ++ digits)

/-- Numbers in brackets. -/
def bracketed (numbers : List String) : String := "[" ++ ", ".intercalate numbers ++ "]"

def GlobalEncoding.describe (e : GlobalEncoding) : String :=
  "    GPS time=" ++ e.gpsTime ++
    ",\n    Waveform data internal=" ++ toString e.waveformInternal ++
    ",\n    Waveform data external=" ++ toString e.waveformExternal ++
    ",\n    Return data synthetic=" ++ toString e.returnsSynthetic ++
    ",\n    CRS method=" ++ e.crsMethod

/-- The parts of an identifier in hexadecimal, the last with two digits for each byte. -/
def ProjectId.describe (p : ProjectId) : String :=
  "\x7b" ++ hexadecimal 1 p.part1.toNat ++ "-" ++ hexadecimal 1 p.part2.toNat ++ "-" ++
    hexadecimal 1 p.part3.toNat ++ "-" ++
    String.join (p.part4.toList.map fun b ↦ hexadecimal 2 b.toNat) ++ "\x7d"

/-- One number for each axis. -/
def Axes.describe (a : Axes Double) : String := " ".intercalate (a.toList.map Double.describe)

namespace Header

/-- The lines that every version has. -/
def commonLines (h : Header) : List String :=
  ["File Signature: " ++ h.signature,
    "File Source ID: " ++ toString h.sourceId,
    "Global Encoding:\n" ++ h.encoding.describe,
    "Project ID (GUID): " ++ h.projectId.describe,
    "System ID: " ++ h.systemId,
    "Generating Software: " ++ h.software,
    "Las Version: " ++ toString h.version.major ++ "." ++ toString h.version.minor,
    "File Creation Day/Year: " ++ toString h.created.day ++ "/" ++ toString h.created.year,
    "Header Size: " ++ toString h.headerSize,
    "Offset to Points: " ++ toString h.offsetToPoints,
    "Number of VLRs: " ++ toString h.vlrCount,
    "Point Format: " ++ toString h.format,
    "Point Record Length: " ++ toString h.recordLength,
    "Num. of Points (32-bit): " ++ toString h.legacyPoints,
    "Number of Points by Return: " ++ bracketed (h.legacyByReturn.toList.map toString),
    "Scale Factors: " ++ (h.scaling.map Transform.scale).describe,
    "Offsets: " ++ (h.scaling.map Transform.offset).describe,
    "Min: " ++ h.min.describe,
    "Max: " ++ h.max.describe]

/-- The lines of version 1.4. -/
def extendedLines (h : Header) : List String :=
  ["Extended VLR Start: " ++ toString h.evlrOffset,
    "Num. Extended VLR: " ++ toString h.evlrCount,
    "Num. of Points (64-bit): " ++ toString h.points,
    "Number of Points by Return (64-bit): " ++ bracketed (h.byReturn.toList.map toString)]

/-- A listing of the header, each line after a line break. -/
def describe (h : Header) : String :=
  String.join <| (h.commonLines ++
    (if h.version.hasWaveform then ["Waveform Data Start: " ++ toString h.waveformStart] else []) ++
    (if h.version.isExtended then h.extendedLines else [])).map ("\n" ++ ·)

end Header

end LasFile
