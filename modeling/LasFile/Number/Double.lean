import LasFile.Number.Precision

/-!
# Double precision numbers

A `Double` is its sixty-four bits, so that a NaN keeps its payload and the two zeros stay apart.
`Double.view` splits the bits into the three kinds of value, the finite ones with their exact
ratio; conversions from and to whole numbers are defined on that ratio.
-/

namespace LasFile

/-- A binary64 number. Equality is equality of bits; `Double.ieeeEq` compares values. -/
structure Double where
  bits : UInt64
  deriving DecidableEq, Repr, Inhabited

namespace Double

/-- What a `Double` stands for. -/
inductive View where
  | nan
  | infinite (negative : Bool)
  /-- A sign and an exact magnitude `num / den`. -/
  | finite (negative : Bool) (num den : Nat)
  deriving DecidableEq, Repr

/-- The word of the sign alone. -/
def signBit : Nat := 0x8000000000000000

/-- Whether the sign bit is set. -/
def isNegative (d : Double) : Bool := signBit ≤ d.bits.toNat

/-- The bits below the sign. -/
def magnitude (d : Double) : Nat := d.bits.toNat % signBit

def isNaN (d : Double) : Bool := Precision.binary64.infinity < d.magnitude

def isFinite (d : Double) : Bool := d.magnitude < Precision.binary64.infinity

/-- A sign put before a magnitude word. -/
def ofMagnitude (negative : Bool) (word : Nat) : Double :=
  ⟨UInt64.ofNat ((if negative then signBit else 0) + word)⟩

def view (d : Double) : View :=
  if d.isNaN then .nan
  else if d.isFinite then
    let (num, den) := Precision.binary64.ratio d.magnitude
    .finite d.isNegative num den
  else .infinite d.isNegative

/-- The number nearest to a signed ratio. -/
def ofRatio (negative : Bool) (num den : Nat) : Double :=
  ofMagnitude negative (Precision.binary64.ofRatio num den)

def zero : Double := ⟨0⟩

def one : Double := ⟨0x3ff0000000000000⟩

def infinity (negative : Bool) : Double := ofMagnitude negative Precision.binary64.infinity

/-- The NaN of an operation that has no value. -/
def indefinite : Double := ⟨0xfff8000000000000⟩

/-- A NaN with its quiet bit set. -/
def quiet (d : Double) : Double := ⟨d.bits ||| 0x0008000000000000⟩

def neg (d : Double) : Double := ⟨d.bits ^^^ 0x8000000000000000⟩

/-! ## Order -/

/-- The place of a number that is no NaN among all others; the two zeros share theirs. -/
def rank (d : Double) : Int := if d.isNegative then -d.magnitude else d.magnitude

/-- Equality of values: a NaN equals nothing and the two zeros are equal. -/
def ieeeEq (a b : Double) : Bool := !a.isNaN && !b.isNaN && a.rank == b.rank

/-- Order of values, false as soon as one is a NaN. -/
def ieeeLe (a b : Double) : Bool := !a.isNaN && !b.isNaN && a.rank ≤ b.rank

/-- The smaller of two numbers. A NaN loses, and of equal numbers, the two zeros among them, the
second is taken. -/
def min (a b : Double) : Double := if a.isNaN || b.ieeeLe a then b else a

/-- The larger of two numbers. A NaN loses, and of equal numbers, the two zeros among them, the
second is taken. -/
def max (a b : Double) : Double := if a.isNaN || a.ieeeLe b then b else a

/-! ## Whole numbers -/

/-- The number nearest to an integer. -/
def ofInt (n : Int) : Double := ofRatio (n < 0) n.natAbs 1

/-- The nearest integer, halves going away from zero; none for NaNs and infinities. -/
def nearestInt? (d : Double) : Option Int :=
  match d.view with
  | .finite negative num den =>
    let n : Int := Tie.away.quotient num den
    some (if negative then -n else n)
  | _ => none

/-- The nearest whole number as a `Double`. The sign of a zero result is that of the argument;
infinities stay and a NaN becomes quiet. -/
def round (d : Double) : Double :=
  match d.view with
  | .nan => d.quiet
  | .infinite _ => d
  | .finite negative num den => ofRatio negative (Tie.away.quotient num den) 1

/-- The value without its fraction, forced into `0 … top`. A NaN gives zero. -/
def clamp (top : Nat) (d : Double) : Nat :=
  match d.view with
  | .nan => 0
  | .infinite negative => if negative then 0 else top
  | .finite negative num den => if negative then 0 else Nat.min top (num / den)

end Double

end LasFile
