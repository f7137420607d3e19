import LasFile.ExtraDim.Selection
import LasFile.Record.Layout
import LasFile.Vlr.Ignore

/-!
# Settings

What a user states about files to be written and read: the point format, the grid of the
coordinates, extra dimensions, records to ignore, compression and version.
-/

namespace LasFile

structure Settings where
  pointFormat : UInt8
  scale : Axes Double
  offset : Axes Double
  /-- Entries `name=type`, or `all`. -/
  extraDims : List String
  /-- Entries `user/number` or `user`. -/
  ignoreVlrs : List String
  compression : Compression
  minorVersion : Option UInt8
  deriving DecidableEq, Repr

namespace Settings

/-- What holds where nothing is stated. -/
def standard : Settings where
  pointFormat := 3
  scale := .replicate (.ofRatio false 1 100)
  offset := .replicate .zero
  extraDims := []
  ignoreVlrs := []
  compression := .plain
  minorVersion := none

instance : Inhabited Settings := ⟨standard⟩

/-- Equality in which numbers with a fraction are compared by value. -/
def ieeeEq (a b : Settings) : Bool :=
  { a with scale := .replicate .zero, offset := .replicate .zero } ==
      { b with scale := .replicate .zero, offset := .replicate .zero } &&
    (a.scale.zipWith Double.ieeeEq b.scale).all (·) &&
    (a.offset.zipWith Double.ieeeEq b.offset).all (·)

def scaling (s : Settings) : Scaling := .of s.scale s.offset

def selection (s : Settings) (allAllowed : Bool) : Except Error Selection :=
  Selection.parse s.extraDims allAllowed

def ignored (s : Settings) : Except Error (List IgnoreRule) := IgnoreRule.parseAll s.ignoreVlrs

/-- The minor version to write: the one stated, if it defines the point format, or else the first
from 1.2 on that does. -/
def minorToWrite (s : Settings) : Except Error UInt8 :=
  match FormatLayout.minimumMinor? s.pointFormat with
  | none => .error (.pointFormat s.pointFormat)
  | some minimum =>
    match s.minorVersion with
    | none => .ok (max minimum 2)
    | some minor =>
      if minor < minimum || 4 < minor then .error (.file (.formatVersion s.pointFormat minor))
      else .ok minor

/-- The layout of the stated format, with the stated extra dimensions behind the standard fields. -/
def recordLayout (s : Settings) : Except Error RecordLayout :=
  match FormatLayout.ofNumber? s.pointFormat with
  | none => .error (.pointFormat s.pointFormat)
  | some l => do
    let selection ← s.selection false
    let dims := ExtraDim.relocate l.baseSize selection.explicit
    return .ofFormat s.pointFormat s.scaling dims

end Settings

end LasFile
