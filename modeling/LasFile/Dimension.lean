/-!
# Dimensions

What a point can carry a value for: a standard dimension of the LAS formats, or one that a user
names.
-/

namespace LasFile

inductive Dimension where
  | x
  | y
  | z
  | intensity
  | returnNumber
  | numberOfReturns
  | scanDirectionFlag
  | edgeOfFlightLine
  | classification
  | classFlags
  | scanChannel
  | scanAngleRank
  | userData
  | pointSourceId
  | gpsTime
  | red
  | green
  | blue
  | infrared
  | user (name : String)
  deriving DecidableEq, Repr, Inhabited

namespace Dimension

def name : Dimension → String
  | x => "X"
  | y => "Y"
  | z => "Z"
  | intensity => "Intensity"
  | returnNumber => "ReturnNumber"
  | numberOfReturns => "NumberOfReturns"
  | scanDirectionFlag => "ScanDirectionFlag"
  | edgeOfFlightLine => "EdgeOfFlightLine"
  | classification => "Classification"
  | classFlags => "ClassFlags"
  | scanChannel => "ScanChannel"
  | scanAngleRank => "ScanAngleRank"
  | userData => "UserData"
  | pointSourceId => "PointSourceId"
  | gpsTime => "GpsTime"
  | red => "Red"
  | green => "Green"
  | blue => "Blue"
  | infrared => "Infrared"
  | user name => name

/-- All standard dimensions. -/
def standard : List Dimension :=
  [x, y, z, intensity, returnNumber, numberOfReturns, scanDirectionFlag, edgeOfFlightLine,
    classification, classFlags, scanChannel, scanAngleRank, userData, pointSourceId, gpsTime,
    red, green, blue, infrared]

def isStandard : Dimension → Bool
  | user _ => false
  | _ => true

/-- The standard dimension with exactly this name, or a user's. -/
def ofName (name : String) : Dimension :=
  (standard.find? fun d ↦ d.name == name).getD (user name)

/-- A dimension is canonical when its name leads back to it: no user dimension is called like a
standard one. -/
def IsCanonical (d : Dimension) : Prop := ofName d.name = d

instance (d : Dimension) : Decidable d.IsCanonical :=
  inferInstanceAs (Decidable (ofName d.name = d))

/-- A name is kept. -/
@[simp]
theorem name_ofName (s : String) : (ofName s).name = s := by
  unfold ofName
  cases h : standard.find? fun d ↦ d.name == s with
  | none => rfl
  | some d => simpa using List.find?_some h

/-- Whatever comes from a name is canonical. -/
theorem isCanonical_ofName (s : String) : (ofName s).IsCanonical := by
  simp [IsCanonical]

end Dimension

end LasFile
