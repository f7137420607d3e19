import LasFile.Number.Double

/-!
# Shortest decimal digits

`Decimal.shortest` finds, for a positive finite magnitude, the decimal with the fewest digits among
those that lie nearer to it than to any other number of the format. It walks down the powers of ten
and stops at the first whose multiples hit that interval; only the two multiples next to the value
can be in it first. Among two hits the nearer one is taken, and a `Tie` decides between equally near
ones. `DecimalStyle.render` lays the digits out.
-/

namespace LasFile

/-- The number `digits * 10 ^ exponent`. -/
structure Decimal where
  digits : Nat
  exponent : Int
  deriving DecidableEq, Repr, Inhabited

namespace Decimal

/-- The reals that round to a magnitude, in quarters of its last place times `2 ^ exponent`. Both
ends belong to it exactly when `closed`. -/
structure Interval where
  low : Nat
  middle : Nat
  high : Nat
  exponent : Int
  closed : Bool

/-- The interval of a positive finite magnitude word. Below a power of two the grid is finer, so
the lower end is nearer there. -/
def interval (p : Precision) (word : Nat) : Interval :=
  let m := p.significand word
  let narrow := word % p.hiddenBit = 0 && p.hiddenBit < word
  { low := 4 * m - (if narrow then 1 else 2)
    middle := 4 * m
    high := 4 * m + 2
    exponent := p.exponent word - 2
    closed := m % 2 == 0 }

/-- The multiple of `10 ^ t` to be taken for the interval, if one lies in it. -/
def onGrid? (tie : Tie) (i : Interval) (t : Int) : Option Nat :=
  let num := Nat.pow 10 (-t).toNat <<< i.exponent.toNat
  let den := Nat.pow 10 t.toNat <<< (-i.exponent).toNat
  let below := i.middle * num / den
  let above := below + 1
  let fitsBelow := i.low * num < below * den || i.closed && i.low * num = below * den
  let fitsAbove := above * den < i.high * num || i.closed && above * den = i.high * num
  match fitsBelow, fitsAbove with
  | true, true => some (tie.quotient (i.middle * num) den)
  | true, false => some below
  | false, true => some above
  | false, false => none

/-- The first hit on the grids `10 ^ t`, `10 ^ (t - 1)` and so on. -/
def search (tie : Tie) (i : Interval) : Nat → Int → Decimal
  | 0, t => ⟨i.middle, t⟩
  | fuel + 1, t =>
    match onGrid? tie i t with
    | some digits => ⟨digits, t⟩
    | none => search tie i fuel (t - 1)

/-- The shortest decimal of a positive finite magnitude word. The first grid tried is coarser than
the magnitude, and seventeen digits below it always suffice. -/
def shortest (tie : Tie) (p : Precision) (word : Nat) : Decimal :=
  let log2 : Int := p.exponent word + (p.significand word).log2
  search tie (interval p word) 24 (log2 * 30103 / 100000 + 2)

end Decimal

/-- How a program writes its numbers. -/
structure DecimalStyle where
  tie : Tie
  /-- Whether a whole number ends in `.0`. -/
  keepsPoint : Bool
  /-- The scientific exponents written without an exponent, if not all. -/
  plain : Option (Int × Int)
  nan : String
  infinity : String

namespace DecimalStyle

/-- The digits `ds` followed by `10 ^ t`, without an exponent. -/
def positional (style : DecimalStyle) (ds : String) (t : Int) : String :=
  let point := ds.length + t
  if 0 ≤ t then
    ds ++ "".pushn '0' t.toNat ++ (if style.keepsPoint then ".0" else "")
  else if 0 < point then
    String.ofList (ds.toList.take point.toNat) ++ "." ++
      String.ofList (ds.toList.drop point.toNat)
  else "0." ++ "".pushn '0' (-point).toNat ++ ds

/-- One digit, the others after a point, and an exponent with its sign. -/
def scientific (ds : String) (exponent : Int) : String :=
  let fraction := String.ofList (ds.toList.drop 1)
  String.ofList (ds.toList.take 1) ++ (if fraction.isEmpty then "" else "." ++ fraction) ++
    (if exponent < 0 then "e-" else "e+") ++ toString exponent.natAbs

/-- The text of a positive decimal. -/
def renderDecimal (style : DecimalStyle) (d : Decimal) : String :=
  let ds := toString d.digits
  let exponent := ds.length + d.exponent - 1
  match style.plain with
  | none => style.positional ds d.exponent
  | some (low, high) =>
    if low ≤ exponent && exponent ≤ high then style.positional ds d.exponent
    else scientific ds exponent

/-- The text of a number. -/
def render (style : DecimalStyle) (d : Double) : String :=
  if d.isNaN then style.nan
  else
    (if d.isNegative then "-" else "") ++
      (if !d.isFinite then style.infinity
       else if d.magnitude = 0 then style.positional "0" 0
       else style.renderDecimal (.shortest style.tie .binary64 d.magnitude))

end DecimalStyle

/-- Numbers in descriptions and messages: all digits, never an exponent. -/
def DecimalStyle.report : DecimalStyle where
  tie := .away
  keepsPoint := false
  plain := none
  nan := "NaN"
  infinity := "inf"

/-- The text of a number in a description or a message. -/
def Double.describe (d : Double) : String := DecimalStyle.report.render d

end LasFile
