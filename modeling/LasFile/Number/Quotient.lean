/-!
# Quotients rounded to whole numbers

The one rounding step behind every number of this library. A quotient of natural numbers goes to
the nearest whole number, and `Tie` says what happens to a quotient halfway between two of them.
-/

namespace LasFile

/-- What happens to a value halfway between two neighbours. -/
inductive Tie where
  /-- The neighbour of larger magnitude is taken. -/
  | away
  /-- The even neighbour is taken. -/
  | even
  deriving DecidableEq, Repr, Inhabited

namespace Tie

/-- Whether a value halfway between `lower` and `lower + 1` goes to `lower + 1`. -/
def goesUp : Tie → Nat → Bool
  | .away, _ => true
  | .even, lower => lower % 2 == 1

/-- The whole number nearest to `num / den`. -/
def quotient (tie : Tie) (num den : Nat) : Nat :=
  let lower := num / den
  let twice := 2 * (num % den)
  if den < twice then lower + 1
  else if twice = den && tie.goesUp lower then lower + 1
  else lower

/-- A rounded quotient is the floor or its successor. -/
theorem quotient_eq (tie : Tie) (num den : Nat) :
    tie.quotient num den = num / den ∨ tie.quotient num den = num / den + 1 := by
  unfold quotient
  grind

/-- A whole quotient is left alone. -/
theorem quotient_mul_right (tie : Tie) (n : Nat) {den : Nat} (h : 0 < den) :
    tie.quotient (n * den) den = n := by
  simp [quotient, Nat.mul_div_cancel n h]
  omega

/-- A rounded quotient is at most half a unit away from the quotient. -/
theorem quotient_within (tie : Tie) (num : Nat) {den : Nat} (h : 0 < den) :
    2 * num ≤ (2 * tie.quotient num den + 1) * den ∧
      2 * (tie.quotient num den * den) ≤ 2 * num + den := by
  have hd := Nat.div_add_mod num den
  have hm := Nat.mod_lt num h
  unfold quotient
  simp only
  generalize num / den = q at *
  generalize num % den = r at *
  subst hd
  have hc : q * den = den * q := Nat.mul_comm _ _
  split
  · constructor <;> simp only [Nat.add_mul, Nat.mul_assoc, hc] <;> omega
  · split <;> constructor <;> simp_all [Nat.add_mul, Nat.mul_assoc] <;> omega

end Tie

end LasFile
