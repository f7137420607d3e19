import LasFile.Proofs.Number.Rational
import Mathlib.Tactic.Linarith

/-!
# Nearest integers

The integer that a double is rounded to, said without the rounding: it is at most half a unit away
from the number, and where two integers are that near it is the one further from zero. There is one
such integer for every rational number.
-/

namespace LasFile

/-- A quotient is less than half a unit above the whole number that it is rounded to if halves go
away from zero. -/
theorem Tie.lt_away_quotient (num : Nat) {den : Nat} (h : 0 < den) :
    2 * num < (2 * Tie.away.quotient num den + 1) * den := by
  have hsum := Nat.div_add_mod num den
  have hrest := Nat.mod_lt num h
  unfold quotient
  simp only [goesUp, Bool.and_true]
  generalize num / den = lower at *
  generalize num % den = rest at *
  subst hsum
  have hcomm : lower * den = den * lower := Nat.mul_comm _ _
  split
  · simp only [Nat.add_mul, Nat.mul_assoc, hcomm]
    omega
  · split <;> simp_all only [Nat.add_mul, Nat.mul_assoc, decide_eq_true_eq] <;> omega

/-- The integer nearest to a rational number, halves going away from zero. -/
structure IsNearest (q : ℚ) (n : ℤ) : Prop where
  within : |q - n| ≤ 1 / 2
  away : |q - n| = 1 / 2 → |q| < |(n : ℚ)|

namespace IsNearest

variable {q : ℚ} {n m : ℤ}

theorem le (hn : IsNearest q n) (hm : IsNearest q m) : n ≤ m := by
  by_contra hless
  have hsucc : (m : ℚ) + 1 ≤ n := by exact_mod_cast not_le.1 hless
  obtain ⟨hlow, hhigh⟩ := abs_le.1 hn.within
  obtain ⟨hlow', hhigh'⟩ := abs_le.1 hm.within
  -- Both are as far as they may be, so that `q` lies in the middle between them.
  have hmiddle : q = m + 1 / 2 := by linarith
  have hnext : (n : ℚ) = m + 1 := by linarith
  have hdown := sq_lt_sq.2 (hm.away (by rw [hmiddle]; norm_num))
  have hup := sq_lt_sq.2 (hn.away (by rw [hmiddle, hnext]; norm_num))
  have hneg : (m : ℚ) < 0 := by
    rw [hmiddle] at hdown
    linarith
  have hpos : (0 : ℚ) < m + 1 := by
    rw [hmiddle, hnext] at hup
    linarith
  have hneg' : m < 0 := by exact_mod_cast hneg
  have hpos' : 0 < m + 1 := by exact_mod_cast hpos
  omega

theorem unique (hn : IsNearest q n) (hm : IsNearest q m) : n = m :=
  le_antisymm (hn.le hm) (hm.le hn)

/-- Rounding finds the nearest integer. -/
theorem onRat_quotient (q : ℚ) : IsNearest q (onRat Tie.away.quotient q) := by
  have habs := natAbs_num_div_den q
  have hden : (0 : ℚ) < q.den := by exact_mod_cast q.den_pos
  obtain ⟨-, hlow⟩ := Tie.away.quotient_within q.num.natAbs q.den_pos
  have hhigh := Tie.lt_away_quotient q.num.natAbs q.den_pos
  unfold onRat
  generalize Tie.away.quotient q.num.natAbs q.den = k at *
  have hbelow : (k : ℚ) - 1 / 2 ≤ |q| := by
    rw [← habs, le_div_iff₀ hden]
    have : (2 : ℚ) * (k * q.den) ≤ 2 * q.num.natAbs + q.den := by exact_mod_cast hlow
    linarith
  have habove : |q| < k + 1 / 2 := by
    rw [← habs, div_lt_iff₀ hden]
    have : (2 : ℚ) * q.num.natAbs < (2 * k + 1) * q.den := by exact_mod_cast hhigh
    linarith
  have hdistance : |q - ((if q < 0 then -k else k : ℤ) : ℚ)| = abs (|q| - k) := by
    split
    next hneg =>
      rw [abs_of_neg hneg, ← abs_neg, Int.cast_neg, Int.cast_natCast]
      ring_nf
    next hpos => rw [abs_of_nonneg (not_lt.1 hpos), Int.cast_natCast]
  have hsize : |((if q < 0 then -k else k : ℤ) : ℚ)| = k := by split <;> simp
  refine ⟨?_, fun htie ↦ ?_⟩
  · rw [hdistance, abs_le]
    constructor <;> linarith
  · rw [hdistance] at htie
    rw [hsize]
    rcases (abs_eq (by norm_num)).1 htie with hupper | hlower <;> linarith

end IsNearest

/-- A double is rounded to the integer nearest to its number, and only a finite one is. -/
theorem Double.nearestInt?_eq_some {d : Double} {n : ℤ} :
    d.nearestInt? = some n ↔ d.isFinite = true ∧ IsNearest d.toRat n := by
  constructor
  · intro h
    have hfinite := isFinite_of_nearestInt? h
    rw [nearestInt?_of_isFinite hfinite, Option.some.injEq] at h
    exact ⟨hfinite, h ▸ .onRat_quotient _⟩
  · rintro ⟨hfinite, hnearest⟩
    rw [nearestInt?_of_isFinite hfinite, (IsNearest.onRat_quotient _).unique hnearest]

end LasFile
