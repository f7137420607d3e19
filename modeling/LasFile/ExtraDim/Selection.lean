import LasFile.Error
import LasFile.ExtraDim.Basic
import LasFile.Format
import LasFile.Point

/-!
# Selected extra dimensions

Options name extra dimensions as `name=type` entries, or ask for all of them with the word `all`. A
selection of all dimensions is resolved against a sample point: every value that the point format
has no place for becomes a dimension, typed by its value, in the order of the names.
-/

namespace LasFile

inductive Selection where
  /-- Every dimension that the point format does not store. -/
  | all
  | only (dims : List ExtraDim)
  deriving DecidableEq, Repr

namespace Selection

/-- The dimension named by an entry `name=type`, not yet placed. -/
def parseEntry (entry : String) : Except Error ExtraDim :=
  match Text.splitAt? '=' entry with
  | none => .error (.extraDim entry)
  | some (name, type) =>
    if (Text.trim name).isEmpty then .error (.extraDim entry)
    else
      match Scalar.ofName? type with
      | none => .error (.extraDimType (Text.trim type))
      | some scalar => .ok (.plain (Text.trim name) (.scalar scalar) 0)

/-- The entries up to the first `all`, which decides without regard to what follows it. -/
def parseEntries (allAllowed : Bool) : List String → Except Error Selection
  | [] => .ok (only [])
  | entry :: rest =>
    if Text.trim entry = "all" then
      if allAllowed then .ok all else .error (.extraDim entry)
    else do
      let dim ← parseEntry entry
      match ← parseEntries allAllowed rest with
      | all => return all
      | only dims => return only (dim :: dims)

/-- The selection stated by options, placed from the beginning of the extra bytes on. -/
def parse (entries : List String) (allAllowed : Bool) : Except Error Selection := do
  match ← parseEntries allAllowed entries with
  | all => return all
  | only dims => return only (ExtraDim.contiguous 0 dims)

/-- The storage that loses nothing of a value. Runs of no bytes and of more than 255 have none. -/
def storageOf : Value → Option Storage
  | .signed _ => some (.scalar (.signed .eight))
  | .unsigned _ => some (.scalar (.unsigned .eight))
  | .float _ => some (.scalar .double)
  | .bytes bs =>
    if bs.isEmpty || 255 < bs.length then none else some (.raw (.ofNat bs.length))

/-- The fields of a point that a format has no place for, in the order of their names. -/
def unplaced (sample : Point) (format : UInt8) : List (Dimension × Value) :=
  let standard := FormatLayout.dimensionsOf format
  (sample.fields.filter fun (d, _) ↦ !standard.contains d).mergeSort fun a b ↦ a.1.name ≤ b.1.name

/-- All dimensions of a sample point that a format has no place for. -/
def sampled (sample : Point) (format : UInt8) : List ExtraDim :=
  ExtraDim.contiguous 0 <| (unplaced sample format).filterMap fun (d, v) ↦
    (storageOf v).map fun storage ↦ .plain d.name storage 0

/-- The dimensions selected, with a sample point for a selection of all. -/
def resolve (selection : Selection) (sample : Point) (format : UInt8) : List ExtraDim :=
  match selection with
  | only dims => dims
  | all => sampled sample format

/-- The dimensions named one by one; none if all were asked for. -/
def explicit : Selection → List ExtraDim
  | all => []
  | only dims => dims

end Selection

/-- Length of a record of some format followed by extra dimensions. -/
def FormatLayout.recordLength (l : FormatLayout) (dims : List ExtraDim) : Nat :=
  l.baseSize + ExtraDim.totalSize dims

end LasFile
