import LasFile.Number.Double

/-!
# Single precision numbers

A `Single` is its thirty-two bits. Widening is exact, narrowing rounds to nearest. A NaN keeps its
sign and the leading bits of its payload on both ways and comes out quiet.
-/

namespace LasFile

/-- A binary32 number. -/
structure Single where
  bits : UInt32
  deriving DecidableEq, Repr, Inhabited

namespace Single

/-- The word of the sign alone. -/
def signBit : Nat := 0x80000000

/-- Whether the sign bit is set. -/
def isNegative (s : Single) : Bool := signBit ≤ s.bits.toNat

/-- The bits below the sign. -/
def magnitude (s : Single) : Nat := s.bits.toNat % signBit

def isNaN (s : Single) : Bool := Precision.binary32.infinity < s.magnitude

/-- A sign put before a magnitude word. -/
def ofMagnitude (negative : Bool) (word : Nat) : Single :=
  ⟨UInt32.ofNat ((if negative then signBit else 0) + word)⟩

end Single

/-- How many more payload bits a NaN has in a `Double` than in a `Single`. -/
def payloadShift : Nat := Precision.binary64.fractionBits - Precision.binary32.fractionBits

/-- The same value in double precision. -/
def Single.toDouble (s : Single) : Double :=
  let p := Precision.binary32
  let q := Precision.binary64
  if p.infinity < s.magnitude then
    .ofMagnitude s.isNegative
      (q.infinity + ((s.magnitude - p.infinity) <<< payloadShift ||| q.quietBit))
  else if s.magnitude = p.infinity then .infinity s.isNegative
  else
    let (num, den) := p.ratio s.magnitude
    .ofRatio s.isNegative num den

/-- The nearest number in single precision. -/
def Double.toSingle (d : Double) : Single :=
  let p := Precision.binary32
  let q := Precision.binary64
  if q.infinity < d.magnitude then
    .ofMagnitude d.isNegative
      (p.infinity + ((d.magnitude - q.infinity) >>> payloadShift ||| p.quietBit))
  else if d.magnitude = q.infinity then .ofMagnitude d.isNegative p.infinity
  else
    let (num, den) := q.ratio d.magnitude
    .ofMagnitude d.isNegative (p.ofRatio num den)

end LasFile
