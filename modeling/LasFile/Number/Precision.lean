import LasFile.Number.Quotient

/-!
# Binary interchange formats

A `Precision` is the shape of an IEEE 754 binary format: a sign bit, a biased exponent and a
fraction. `Precision.ofRatio` rounds an exact ratio of natural numbers to the magnitude part of
such a word, to nearest with ties to even, gradual underflow and overflow to infinity included.
`Precision.ratio` is the exact value of a finite magnitude.
-/

namespace LasFile

/-- The widths of the two fields below the sign bit. -/
structure Precision where
  fractionBits : Nat
  exponentBits : Nat
  deriving DecidableEq, Repr

namespace Precision

/-- The format of `Double`. -/
def binary64 : Precision := ⟨52, 11⟩

/-- The format of `Single`. -/
def binary32 : Precision := ⟨23, 8⟩

/-- The largest exponent field, kept for infinities and NaNs. -/
def topField (p : Precision) : Nat := 1 <<< p.exponentBits - 1

/-- The magnitude word of infinity. Every larger magnitude word is a NaN. -/
def infinity (p : Precision) : Nat := p.topField <<< p.fractionBits

/-- The bit that marks a NaN as quiet. -/
def quietBit (p : Precision) : Nat := 1 <<< (p.fractionBits - 1)

/-- The first magnitude word of a normal number, which is the hidden bit of their significands. -/
def hiddenBit (p : Precision) : Nat := 1 <<< p.fractionBits

/-- The exponent of the smallest positive magnitude. -/
def minExponent (p : Precision) : Int :=
  2 - (1 <<< (p.exponentBits - 1) : Nat) - p.fractionBits

/-- The significand of a finite magnitude word, with the hidden bit of a normal one. -/
def significand (p : Precision) (word : Nat) : Nat :=
  if word < p.hiddenBit then word else p.hiddenBit + word % p.hiddenBit

/-- The exponent of a finite magnitude word's last place. -/
def exponent (p : Precision) (word : Nat) : Int :=
  p.minExponent + (word / p.hiddenBit - 1 : Nat)

/-- The exact value of a finite magnitude word as a numerator and a positive denominator. -/
def ratio (p : Precision) (word : Nat) : Nat × Nat :=
  let e := p.exponent word
  (p.significand word <<< e.toNat, 1 <<< (-e).toNat)

/-- The largest `e` with `2 ^ e ≤ num / den`, for positive numbers. -/
def floorLog2 (num den : Nat) : Int :=
  let e : Int := num.log2 - den.log2
  if num <<< (-e).toNat < den <<< e.toNat then e - 1 else e

/-- The magnitude word nearest to `num / den`, ties to even. The significand is rounded on the
grid of the value's own exponent; adding it to the shifted exponent field lets a carry out of the
significand move to the next exponent by itself. -/
def ofRatio (p : Precision) (num den : Nat) : Nat :=
  if num = 0 then 0
  else
    let unit := max (floorLog2 num den - p.fractionBits) p.minExponent
    let rounded := Tie.even.quotient (num <<< (-unit).toNat) (den <<< unit.toNat)
    min p.infinity ((unit - p.minExponent).toNat * p.hiddenBit + rounded)

end Precision

end LasFile
