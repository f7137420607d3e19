import LasFile.Number.Double

/-!
# Arithmetic of doubles

The four operations on the exact values of their arguments, rounded once. An argument that is a
NaN is handed on as a quiet NaN, the first of two; an operation without a value, such as the
difference of equal infinities, gives `Double.indefinite`.
-/

namespace LasFile.Double

/-- Hands on the first NaN among the arguments, or else computes. -/
def withoutNaN (compute : View → View → Double) (a b : Double) : Double :=
  if a.isNaN then a.quiet
  else if b.isNaN then b.quiet
  else compute a.view b.view

/-- The nearest number to a signed ratio whose zero has the sign `zeroNegative`. -/
def ofSigned (zeroNegative : Bool) (num : Int) (den : Nat) : Double :=
  if num = 0 then ofMagnitude zeroNegative 0 else ofRatio (num < 0) num.natAbs den

/-- A magnitude with its sign. -/
def signed (negative : Bool) (n : Nat) : Int := if negative then -n else n

def addViews : View → View → Double
  | .finite s m d, .finite t n e =>
    ofSigned (s && t) (signed s (m * e) + signed t (n * d)) (d * e)
  | .infinite s, .finite .. => infinity s
  | .finite .., .infinite t => infinity t
  | .infinite s, .infinite t => if s = t then infinity s else indefinite
  | _, _ => indefinite

/-- The other sign. -/
def View.flip : View → View
  | .nan => .nan
  | .infinite s => .infinite !s
  | .finite s m d => .finite (!s) m d

def mulViews : View → View → Double
  | .finite s m d, .finite t n e => ofRatio (s != t) (m * n) (d * e)
  | .infinite s, .finite t n _ => if n = 0 then indefinite else infinity (s != t)
  | .finite s m _, .infinite t => if m = 0 then indefinite else infinity (s != t)
  | .infinite s, .infinite t => infinity (s != t)
  | _, _ => indefinite

def divViews : View → View → Double
  | .finite s m d, .finite t n e =>
    if n = 0 then (if m = 0 then indefinite else infinity (s != t))
    else ofRatio (s != t) (m * e) (d * n)
  | .infinite s, .finite t .. => infinity (s != t)
  | .finite s .., .infinite t => ofMagnitude (s != t) 0
  | _, _ => indefinite

instance : Add Double := ⟨withoutNaN addViews⟩
instance : Sub Double := ⟨withoutNaN fun a b ↦ addViews a b.flip⟩
instance : Mul Double := ⟨withoutNaN mulViews⟩
instance : Div Double := ⟨withoutNaN divViews⟩
instance : Neg Double := ⟨neg⟩

end LasFile.Double
