import LasFile.Number.Arithmetic

/-!
# Linear transforms

Coordinates, and some extra dimensions, are stored as numbers on a grid. A `Transform` maps a
stored number to its real value and back; a `Scaling` has one transform for each axis.
-/

namespace LasFile

/-- A stored number times `scale` plus `offset`. -/
structure Transform where
  scale : Double
  offset : Double
  deriving DecidableEq, Repr

namespace Transform

def identity : Transform := ⟨.one, .zero⟩

instance : Inhabited Transform := ⟨identity⟩

/-- Whether this differs from the identity as a pair of values. -/
def isNonstandard (t : Transform) : Bool := !(t.scale.ieeeEq .one && t.offset.ieeeEq .zero)

def fromStored (t : Transform) (stored : Double) : Double := stored * t.scale + t.offset

/-- The point of the grid before rounding. -/
def onGrid (t : Transform) (value : Double) : Double := (value - t.offset) / t.scale

/-- The stored number nearest to a value. It may lie outside every storage type. -/
def toStored (t : Transform) (value : Double) : Double := (t.onGrid value).round

end Transform

/-- One value for each axis. -/
structure Axes (α : Type) where
  x : α
  y : α
  z : α
  deriving DecidableEq, Repr, Inhabited

namespace Axes

def replicate {α : Type} (a : α) : Axes α := ⟨a, a, a⟩

def map {α β : Type} (f : α → β) (a : Axes α) : Axes β := ⟨f a.x, f a.y, f a.z⟩

def zipWith {α β γ : Type} (f : α → β → γ) (a : Axes α) (b : Axes β) : Axes γ :=
  ⟨f a.x b.x, f a.y b.y, f a.z b.z⟩

def toList {α : Type} (a : Axes α) : List α := [a.x, a.y, a.z]

def all {α : Type} (p : α → Bool) (a : Axes α) : Bool := a.toList.all p

end Axes

/-- The transforms of the three coordinates. -/
abbrev Scaling := Axes Transform

/-- The scaling with the given factors and offsets. -/
def Scaling.of (scale offset : Axes Double) : Scaling := scale.zipWith Transform.mk offset

/-- The scaling that changes nothing. -/
def Scaling.identity : Scaling := .replicate .identity

end LasFile
