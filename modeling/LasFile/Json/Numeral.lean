import LasFile.Number.Arithmetic

/-!
# Numerals of a settings file

A `Numeral` is a number as it is written. Its value is computed quickly rather than exactly: the
leading digits that fit sixty-four bits become a double, and that is multiplied or divided by a
power of ten. The last place of the result can therefore differ from the nearest double.
-/

namespace LasFile.Json

/-- The parts of a written number. -/
structure Numeral where
  negative : Bool
  whole : List Nat
  /-- The digits after the point, if there is one. -/
  fraction : Option (List Nat)
  exponent : Option Int
  deriving DecidableEq, Repr, Inhabited

namespace Numeral

/-- Takes digits into a number as long as it stays below `2 ^ 64`, and gives back the others. -/
def accumulate : Nat → List Nat → Nat × List Nat
  | n, [] => (n, [])
  | n, d :: ds => if 10 * n + d < UInt64.size then accumulate (10 * n + d) ds else (n, d :: ds)

/-- The significand and the power of ten that belongs to it. Whole digits left over raise the power,
digits after the point that were taken in lower it. -/
def parts (n : Numeral) : Nat × Int :=
  let (whole, left) := accumulate 0 n.whole
  let fraction := n.fraction.getD []
  let (significand, dropped) := accumulate whole fraction
  (significand, left.length - (fraction.length - dropped.length : Nat) + n.exponent.getD 0)

/-- The largest power of ten that is used in one step. -/
def stepExponent : Nat := 308

/-- A power of ten as a double. -/
def powerOfTen (e : Nat) : Double := .ofInt (Nat.pow 10 e)

/-- A number times a power of ten. Small powers are applied in steps; two steps already take every
significand to zero. A result that is too large is none. -/
def scaled : Nat → Double → Int → Option Double
  | 0, _, _ => some .zero
  | steps + 1, d, e =>
    if e.natAbs ≤ stepExponent then
      if 0 ≤ e then
        let product := d * powerOfTen e.natAbs
        if product.isFinite then some product else none
      else some (d / powerOfTen e.natAbs)
    else if d.ieeeEq .zero then some d
    else if 0 ≤ e then none
    else scaled steps (d / powerOfTen stepExponent) (e + stepExponent)

/-- The value of a numeral, none if it is too large. -/
def toDouble? (n : Numeral) : Option Double :=
  let (significand, exponent) := n.parts
  (scaled 4 (.ofInt significand) exponent).map fun d ↦ if n.negative then -d else d

/-- The value of a numeral without sign, point and exponent. -/
def toNat? (n : Numeral) : Option Nat :=
  if n.negative || n.fraction.isSome || n.exponent.isSome then none
  else some (n.whole.foldl (fun value d ↦ 10 * value + d) 0)

end Numeral

end LasFile.Json
