import LasFile.Number.Arithmetic
import LasFile.Proofs.Number.Exact

/-!
# Rounding keeps order

Of two ratios the larger one is never rounded to less, neither to a whole number nor to the word of
a binary format. A function of ratios that keeps their order does so on rational numbers of either
sign.
-/

namespace LasFile

/-! ## Functions of ratios -/

/-- A function of ratios of natural numbers that keeps their order. -/
structure KeepsOrder (f : Nat → Nat → Nat) : Prop where
  zero : ∀ {den : Nat}, 0 < den → f 0 den = 0
  mono : ∀ {num den num' den' : Nat}, 0 < den → 0 < den' → (num : ℚ) / den ≤ num' / den' →
    f num den ≤ f num' den'

/-- A function of ratios as an odd function of rational numbers. -/
def onRat (f : Nat → Nat → Nat) (q : ℚ) : ℤ :=
  if q < 0 then -f q.num.natAbs q.den else f q.num.natAbs q.den

theorem natAbs_num_div_den (q : ℚ) : (q.num.natAbs : ℚ) / q.den = |q| := by
  rw [← Int.cast_natCast, Int.natCast_natAbs, Int.cast_abs, ← Nat.abs_cast q.den, ← abs_div,
    Rat.num_div_den]

namespace KeepsOrder

variable {f : Nat → Nat → Nat} (hf : KeepsOrder f)

include hf

theorem eq_of_div_eq {num den num' den' : Nat} (hden : 0 < den) (hden' : 0 < den')
    (h : (num : ℚ) / den = num' / den') : f num den = f num' den' :=
  le_antisymm (hf.mono hden hden' h.le) (hf.mono hden' hden h.ge)

theorem onRat_mono {q q' : ℚ} (h : q ≤ q') : onRat f q ≤ onRat f q' := by
  have hmono : |q| ≤ |q'| → f q.num.natAbs q.den ≤ f q'.num.natAbs q'.den := fun habs ↦
    hf.mono q.den_pos q'.den_pos (by rwa [natAbs_num_div_den, natAbs_num_div_den])
  have hmono' : |q'| ≤ |q| → f q'.num.natAbs q'.den ≤ f q.num.natAbs q.den := fun habs ↦
    hf.mono q'.den_pos q.den_pos (by rwa [natAbs_num_div_den, natAbs_num_div_den])
  unfold onRat
  rcases lt_or_ge q 0 with hq | hq <;> rcases lt_or_ge q' 0 with hq' | hq'
  · have hless := hmono' (by rwa [abs_of_neg hq, abs_of_neg hq', neg_le_neg_iff])
    rw [if_pos hq, if_pos hq']
    omega
  · rw [if_pos hq, if_neg (not_lt.2 hq')]
    omega
  · exact absurd (hq.trans h) (not_le.2 hq')
  · have hless := hmono (by rwa [abs_of_nonneg hq, abs_of_nonneg hq'])
    rw [if_neg (not_lt.2 hq), if_neg (not_lt.2 hq')]
    omega

/-- A ratio with a sign. -/
theorem onRat_signed (negative : Bool) (num : Nat) {den : Nat} (hden : 0 < den) :
    onRat f ((Double.signed negative num : ℚ) / den) = Double.signed negative (f num den) := by
  have hden' : (0 : ℚ) < den := by exact_mod_cast hden
  rcases Nat.eq_zero_or_pos num with rfl | hnum
  · have hzero : ((Double.signed negative 0 : ℤ) : ℚ) / den = 0 := by simp [Double.signed]
    rw [hzero, hf.zero hden]
    simp [onRat, Double.signed, hf.zero]
  · have hpos : (0 : ℚ) < num / den := div_pos (by exact_mod_cast hnum) hden'
    have habs : |(Double.signed negative num : ℚ) / den| = num / den := by
      cases negative <;> simp [Double.signed, abs_div]
    have hvalue := hf.eq_of_div_eq (Rat.den_pos _) hden ((natAbs_num_div_den _).trans habs)
    unfold onRat
    rw [hvalue]
    cases negative with
    | false =>
      have hsign : ¬((Double.signed false num : ℚ) / den < 0) := by
        simpa [Double.signed] using hpos.le
      rw [if_neg hsign]
      rfl
    | true =>
      have hsign : (Double.signed true num : ℚ) / den < 0 := by
        simpa [Double.signed, neg_div] using hpos
      rw [if_pos hsign]
      rfl

end KeepsOrder

/-! ## Rounding -/

/-- A larger ratio has a rounded quotient that is no less. Between equal floors the remainders
decide. -/
theorem Tie.keepsOrder (tie : Tie) : KeepsOrder tie.quotient where
  zero hden := by simp [quotient, hden.ne]
  mono := by
    intro num den num' den' hden hden' h
    rw [div_le_div_iff₀ (by exact_mod_cast hden) (by exact_mod_cast hden')] at h
    have hcross : num * den' ≤ num' * den := by exact_mod_cast h
    have hfloors : num / den ≤ num' / den' := by
      rw [Nat.le_div_iff_mul_le hden']
      apply Nat.le_of_mul_le_mul_right _ hden
      calc num / den * den' * den = num / den * den * den' := Nat.mul_right_comm _ _ _
        _ ≤ num * den' := Nat.mul_le_mul_right _ (Nat.div_mul_le_self _ _)
        _ ≤ num' * den := hcross
    rcases hfloors.lt_or_eq with hless | hsame
    · have hup := tie.quotient_eq num den
      have hdown := tie.quotient_eq num' den'
      omega
    · have hrests : num % den * den' ≤ num' % den' * den := by
        have hnum := Nat.div_add_mod num den
        have hnum' := Nat.div_add_mod num' den'
        rw [← hnum, ← hnum', ← hsame, Nat.add_mul, Nat.add_mul,
          show den * (num / den) * den' = den' * (num / den) * den by ring] at hcross
        exact Nat.le_of_add_le_add_left hcross
      have hmore : den < 2 * (num % den) → den' < 2 * (num' % den') := by
        intro hlarge
        apply Nat.lt_of_mul_lt_mul_right (a := den)
        calc den' * den = den * den' := Nat.mul_comm _ _
          _ < 2 * (num % den) * den' := Nat.mul_lt_mul_of_pos_right hlarge hden'
          _ = 2 * (num % den * den') := Nat.mul_assoc _ _ _
          _ ≤ 2 * (num' % den' * den) := Nat.mul_le_mul_left 2 hrests
          _ = 2 * (num' % den') * den := (Nat.mul_assoc _ _ _).symm
      have hhalf : 2 * (num % den) = den → den' ≤ 2 * (num' % den') := by
        intro heven
        apply Nat.le_of_mul_le_mul_right _ hden
        calc den' * den = 2 * (num % den) * den' := by rw [heven, Nat.mul_comm]
          _ = 2 * (num % den * den') := Nat.mul_assoc _ _ _
          _ ≤ 2 * (num' % den' * den) := Nat.mul_le_mul_left 2 hrests
          _ = 2 * (num' % den') * den := (Nat.mul_assoc _ _ _).symm
      unfold quotient
      simp only [← hsame]
      grind

namespace Precision

variable {num den num' den' : Nat}

/-- Of two ratios the larger one has an exponent that is no less. -/
theorem floorLog2_mono (hnum : 0 < num) (hden : 0 < den) (hnum' : 0 < num') (hden' : 0 < den')
    (h : (num : ℚ) / den ≤ num' / den') : floorLog2 num den ≤ floorLog2 num' den' := by
  have hpowers : (2 : ℚ) ^ floorLog2 num den < 2 ^ (floorLog2 num' den' + 1) :=
    calc (2 : ℚ) ^ floorLog2 num den ≤ num / den := (floorLog2_spec hnum hden).1
      _ ≤ num' / den' := h
      _ < 2 ^ (floorLog2 num' den' + 1) := (floorLog2_spec hnum' hden').2
  exact Int.lt_add_one_iff.1 ((zpow_lt_zpow_iff_right₀ one_lt_two).1 hpowers)

/-- A ratio on the grid of a power of two. -/
theorem shift_div_shift (num den : Nat) (unit : ℤ) :
    ((num <<< (-unit).toNat : ℕ) : ℚ) / (den <<< unit.toNat : ℕ) = num / den / 2 ^ unit := by
  have hscale : (2 : ℚ) ^ (-unit).toNat ≠ 0 := by positivity
  rw [Nat.shiftLeft_eq, Nat.shiftLeft_eq]
  push_cast
  rw [zpow_toNat two_ne_zero unit, ← mul_assoc, mul_div_mul_right _ _ hscale, div_mul_eq_div_div]

theorem shift_pos (hden : 0 < den) (unit : ℤ) : 0 < den <<< unit.toNat := by
  rw [Nat.shiftLeft_eq]
  positivity

/-- The exponent of the last place that a ratio is rounded to. -/
def unit (p : Precision) (num den : Nat) : ℤ :=
  max (floorLog2 num den - p.fractionBits) p.minExponent

/-- The significand of a ratio, rounded in its last place. -/
def rounded (num den : Nat) (unit : ℤ) : Nat :=
  Tie.even.quotient (num <<< (-unit).toNat) (den <<< unit.toNat)

variable (p : Precision)

theorem ofRatio_of_pos (hnum : 0 < num) (den : Nat) : p.ofRatio num den =
    min p.infinity ((p.unit num den - p.minExponent).toNat * p.hiddenBit +
      rounded num den (p.unit num den)) := if_neg hnum.ne'

theorem rounded_mono (hden : 0 < den) (hden' : 0 < den') (h : (num : ℚ) / den ≤ num' / den')
    (unit : ℤ) : rounded num den unit ≤ rounded num' den' unit := by
  apply (Tie.keepsOrder .even).mono (shift_pos hden unit) (shift_pos hden' unit)
  rw [shift_div_shift, shift_div_shift]
  gcongr

/-- A ratio lies below twice the hidden bit on its grid. -/
theorem lt_last (hnum : 0 < num) (hden : 0 < den) :
    (num : ℚ) / den < (2 * p.hiddenBit : ℕ) * 2 ^ p.unit num den := by
  have hunit : floorLog2 num den + 1 ≤ p.fractionBits + 1 + p.unit num den := by
    unfold unit
    omega
  rw [hiddenBit_eq]
  calc (num : ℚ) / den < 2 ^ (floorLog2 num den + 1) := (floorLog2_spec hnum hden).2
    _ ≤ 2 ^ (p.fractionBits + 1 + p.unit num den) := zpow_le_zpow_right₀ one_le_two hunit
    _ = (2 * 2 ^ p.fractionBits : ℕ) * 2 ^ p.unit num den := by
      rw [zpow_add₀ two_ne_zero, zpow_add₀ two_ne_zero, zpow_natCast]
      push_cast
      ring

/-- A ratio on a grid above the least one is no less than the hidden bit there. -/
theorem first_le (hnum : 0 < num) (hden : 0 < den) (h : p.minExponent < p.unit num den) :
    (p.hiddenBit : ℚ) * 2 ^ p.unit num den ≤ num / den := by
  have hunit : p.fractionBits + p.unit num den = floorLog2 num den := by
    unfold unit at h ⊢
    omega
  rw [hiddenBit_eq]
  calc ((2 ^ p.fractionBits : ℕ) : ℚ) * 2 ^ p.unit num den
      = 2 ^ (p.fractionBits + p.unit num den) := by
        rw [zpow_add₀ two_ne_zero, zpow_natCast]
        push_cast
        rfl
    _ = 2 ^ floorLog2 num den := by rw [hunit]
    _ ≤ num / den := (floorLog2_spec hnum hden).1

/-- A significand is rounded to at most twice the hidden bit. -/
theorem rounded_le (hnum : 0 < num) (hden : 0 < den) :
    rounded num den (p.unit num den) ≤ 2 * p.hiddenBit := by
  have hwhole : Tie.even.quotient (2 * p.hiddenBit) 1 = 2 * p.hiddenBit := by
    simpa using Tie.even.quotient_mul_right (2 * p.hiddenBit) one_pos
  rw [← hwhole]
  apply (Tie.keepsOrder .even).mono (shift_pos hden _) one_pos
  rw [shift_div_shift, Nat.cast_one, div_one, div_le_iff₀ (by positivity)]
  exact (p.lt_last hnum hden).le

/-- A significand on a grid above the least one is rounded to no less than the hidden bit. -/
theorem le_rounded (hnum : 0 < num) (hden : 0 < den) (h : p.minExponent < p.unit num den) :
    p.hiddenBit ≤ rounded num den (p.unit num den) := by
  have hwhole : Tie.even.quotient p.hiddenBit 1 = p.hiddenBit := by
    simpa using Tie.even.quotient_mul_right p.hiddenBit one_pos
  rw [← hwhole]
  apply (Tie.keepsOrder .even).mono one_pos (shift_pos hden _)
  rw [shift_div_shift, Nat.cast_one, div_one, le_div_iff₀ (by positivity)]
  exact p.first_le hnum hden h

theorem ofRatio_le_infinity (num den : Nat) : p.ofRatio num den ≤ p.infinity := by
  unfold ofRatio
  split
  · exact Nat.zero_le _
  · exact Nat.min_le_left _ _

/-- A larger ratio is rounded to a word that is no less. On one grid the significands decide. On a
finer grid the smaller ratio is rounded to at most the first word of the next one. -/
theorem keepsOrder : KeepsOrder p.ofRatio where
  zero _ := if_pos rfl
  mono := by
    intro num den num' den' hden hden' h
    rcases Nat.eq_zero_or_pos num with rfl | hnum
    · rw [show p.ofRatio 0 den = 0 from if_pos rfl]
      exact Nat.zero_le _
    · have hnum' : 0 < num' := by
        have hpos : (0 : ℚ) < num / den :=
          div_pos (by exact_mod_cast hnum) (by exact_mod_cast hden)
        have hpos' := (div_pos_iff_of_pos_right (by exact_mod_cast hden')).1 (hpos.trans_le h)
        exact_mod_cast hpos'
      have hexponents := floorLog2_mono hnum hden hnum' hden' h
      have hunits : p.unit num den ≤ p.unit num' den' := by
        unfold unit
        omega
      have hleast : p.minExponent ≤ p.unit num den := le_max_right _ _
      rw [p.ofRatio_of_pos hnum, p.ofRatio_of_pos hnum']
      apply min_le_min_left
      rcases hunits.lt_or_eq with hfiner | hsame
      · have hfields : (p.unit num den - p.minExponent).toNat + 1 ≤
            (p.unit num' den' - p.minExponent).toNat := by omega
        calc (p.unit num den - p.minExponent).toNat * p.hiddenBit +
              rounded num den (p.unit num den)
            ≤ (p.unit num den - p.minExponent).toNat * p.hiddenBit + 2 * p.hiddenBit :=
              Nat.add_le_add_left (p.rounded_le hnum hden) _
          _ = ((p.unit num den - p.minExponent).toNat + 1) * p.hiddenBit + p.hiddenBit := by ring
          _ ≤ (p.unit num' den' - p.minExponent).toNat * p.hiddenBit +
              rounded num' den' (p.unit num' den') :=
            Nat.add_le_add (Nat.mul_le_mul_right _ hfields)
              (p.le_rounded hnum' hden' (by omega))
      · rw [hsame]
        exact Nat.add_le_add_left (rounded_mono hden hden' h _) _

end Precision

end LasFile
