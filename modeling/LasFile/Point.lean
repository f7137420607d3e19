import LasFile.Dimension
import LasFile.Value

/-!
# Points

A `Point` carries at most one value for each dimension. Setting a value replaces the one that was
there or adds the dimension; `Point.get?` is the view through which all else is stated.
-/

namespace LasFile

/-- A finite map from dimensions to values. -/
structure Point where
  fields : List (Dimension × Value)
  /-- No dimension is carried twice. -/
  nodup : (fields.map Prod.fst).Nodup
  deriving DecidableEq, Repr

namespace Point

/-- The fields with a value set. -/
def put (d : Dimension) (v : Value) : List (Dimension × Value) → List (Dimension × Value)
  | [] => [(d, v)]
  | (e, w) :: rest => if e = d then (d, v) :: rest else (e, w) :: put d v rest

theorem map_fst_put (d : Dimension) (v : Value) (fields : List (Dimension × Value)) :
    (put d v fields).map Prod.fst =
      if d ∈ fields.map Prod.fst then fields.map Prod.fst else fields.map Prod.fst ++ [d] := by
  induction fields with
  | nil => rfl
  | cons f rest ih =>
    obtain ⟨e, w⟩ := f
    by_cases h : e = d
    · simp [put, h]
    · have h' : d ≠ e := fun hd ↦ h hd.symm
      simp only [put, h, ↓reduceIte, List.map_cons, ih, List.mem_cons, h', false_or]
      split <;> rfl

theorem nodup_put (d : Dimension) (v : Value) {fields : List (Dimension × Value)}
    (h : (fields.map Prod.fst).Nodup) : ((put d v fields).map Prod.fst).Nodup := by
  rw [map_fst_put]
  split
  · exact h
  next hd => exact List.nodup_append.2 ⟨h, by simp, by grind⟩

theorem lookup_put (d e : Dimension) (v : Value) (fields : List (Dimension × Value)) :
    (put d v fields).lookup e = if e = d then some v else fields.lookup e := by
  induction fields with
  | nil =>
    by_cases h : e = d
    · simp [put, h]
    · simp [put, List.lookup_cons, beq_eq_false_iff_ne.2 h, h]
  | cons f rest ih =>
    obtain ⟨k, w⟩ := f
    unfold put
    split <;> simp only [List.lookup_cons, ih] <;> grind

/-- The point that carries nothing. -/
def empty : Point := ⟨[], by simp⟩

instance : Inhabited Point := ⟨empty⟩

/-- The value carried for a dimension. -/
def get? (p : Point) (d : Dimension) : Option Value := p.fields.lookup d

/-- The point with a value set. -/
def set (p : Point) (d : Dimension) (v : Value) : Point :=
  ⟨put d v p.fields, nodup_put d v p.nodup⟩

/-- The point with values set one after the other. -/
def setAll (p : Point) (fields : List (Dimension × Value)) : Point :=
  fields.foldl (fun q f ↦ q.set f.1 f.2) p

def size (p : Point) : Nat := p.fields.length

/-- The dimensions carried. -/
def dimensions (p : Point) : List Dimension := p.fields.map Prod.fst

def has (p : Point) (d : Dimension) : Bool := (p.get? d).isSome

/-- The value as a double, zero when the point does not carry it. -/
def number (p : Point) (d : Dimension) : Double := ((p.get? d).map Value.toDouble).getD .zero

/-- The value to be stored for a dimension, zero when the point does not carry it. -/
def valueOrZero (p : Point) (d : Dimension) : Value := (p.get? d).getD (.unsigned 0)

@[simp]
theorem get?_empty (d : Dimension) : empty.get? d = none := rfl

/-- Setting a value changes that dimension alone. -/
@[simp]
theorem get?_set (p : Point) (d e : Dimension) (v : Value) :
    (p.set d v).get? e = if e = d then some v else p.get? e :=
  lookup_put d e v p.fields

/-! ## What a point says of itself -/

/-- A value forced into a byte. -/
def byte (p : Point) (d : Dimension) : UInt8 := .ofNat ((p.number d).clamp 255)

def returnNumber (p : Point) : UInt8 := p.byte .returnNumber

def numberOfReturns (p : Point) : UInt8 := p.byte .numberOfReturns

/-- Whether this is the last return or the only one. -/
def isLateReturn (p : Point) : Bool := p.returnNumber == p.numberOfReturns

/-- Whether this is the first of several returns. -/
def isFirstReturn (p : Point) : Bool := p.returnNumber == 1 && 1 < p.numberOfReturns

/-- Whether this is neither the first nor the last return. -/
def isIntermediateReturn (p : Point) : Bool :=
  1 < p.returnNumber && p.returnNumber < p.numberOfReturns

def classification (p : Point) : UInt8 := p.byte .classification

/-- Whether a classification flag is set. -/
def classFlag (p : Point) (mask : UInt8) : Bool := p.byte .classFlags &&& mask == mask

def isSynthetic (p : Point) : Bool := p.classFlag 1

def isKeypoint (p : Point) : Bool := p.classFlag 2

def isWithheld (p : Point) : Bool := p.classFlag 4

/-- Whether the point lies in an overlap of flight lines. Only the extended formats store this. -/
def isOverlap (p : Point) : Bool := p.classFlag 8

/-- The classes with a name of their own. -/
def classNames : List String :=
  ["Created, never classified", "Unclassified", "Ground", "Low vegetation", "Medium vegetation",
    "High vegetation", "Building", "Low point (noise)", "Reserved", "Water", "Rail",
    "Road surface", "Reserved", "Wire - guard (shield)", "Wire - conductor (phase)",
    "Transmission tower", "Wire-structure connector (e.g. insulator)", "Bridge deck", "High noise"]

/-- The name of a class. -/
def className (value : UInt8) : String :=
  classNames.getD value.toNat (if value < 64 then "Reserved" else "User defined")

/-- The user's dimensions with their values, in the order of their names. -/
def extraFields (p : Point) : List (String × Value) :=
  (p.fields.filterMap fun
    | (.user name, v) => some (name, v)
    | _ => none).mergeSort fun a b ↦ a.1 ≤ b.1

/-- A line on the point. -/
def describe (p : Point) : String :=
  "(x=" ++ (p.number .x).describe ++ ", y=" ++ (p.number .y).describe ++
    ", z=" ++ (p.number .z).describe ++ ", return=" ++ toString p.returnNumber ++
    " of " ++ toString p.numberOfReturns ++ ", class=" ++ className p.classification ++ ")"

end Point

end LasFile
