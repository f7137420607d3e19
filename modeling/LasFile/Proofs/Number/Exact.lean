import LasFile.Number.Single
import Mathlib.Algebra.Order.Field.Power
import Mathlib.Algebra.Order.Ring.Rat
import Mathlib.Data.Rat.Cast.Order
import Mathlib.Tactic.FieldSimp
import Mathlib.Tactic.NormNum
import Mathlib.Tactic.Positivity
import Mathlib.Tactic.Ring

/-!
# Exact conversions

A finite magnitude word stands for a rational number, `Precision.value`. A ratio that has the value
of a word is rounded to this word. Nothing is lost therefore where a number goes into a format that
holds it: a whole number below the precision of a double, and a single in double precision and back.
-/

namespace LasFile.Precision

variable {p : Precision}

/-- The number that a finite magnitude word stands for. -/
def value (p : Precision) (word : Nat) : ℚ := p.significand word * 2 ^ p.exponent word

/-! ## Shifts -/

theorem zpow_toNat {b : ℚ} (hb : b ≠ 0) (e : ℤ) : b ^ e.toNat = b ^ e * b ^ (-e).toNat := by
  rw [← zpow_natCast, ← zpow_natCast, ← zpow_add₀ hb]
  congr 1
  omega

/-- A shift to the left on one side of a comparison is a power of two. -/
theorem shift_lt_shift_iff {num den : Nat} (hden : 0 < den) (e : ℤ) :
    num <<< (-e).toNat < den <<< e.toNat ↔ (num : ℚ) / den < 2 ^ e := by
  have hscale : (0 : ℚ) < 2 ^ (-e).toNat := by positivity
  rw [div_lt_iff₀ (by exact_mod_cast hden), ← mul_lt_mul_iff_left₀ hscale, ← Nat.cast_lt (α := ℚ),
    Nat.shiftLeft_eq, Nat.shiftLeft_eq]
  push_cast
  rw [zpow_toNat two_ne_zero e, mul_comm (2 ^ e : ℚ) (den : ℚ), ← mul_assoc]

/-- A ratio that is a multiple of a power of two, on the grid of that power. -/
theorem shift_eq_mul_shift {num den n : Nat} (hden : 0 < den) {unit : ℤ}
    (h : (num : ℚ) / den = n * 2 ^ unit) :
    num <<< (-unit).toNat = n * den <<< unit.toNat := by
  have hnum : (num : ℚ) = n * 2 ^ unit * den :=
    (div_eq_iff (by exact_mod_cast hden.ne')).1 h
  rw [← Nat.cast_inj (R := ℚ), Nat.shiftLeft_eq, Nat.shiftLeft_eq]
  push_cast
  rw [zpow_toNat two_ne_zero unit, hnum]
  ring

/-! ## Exponents -/

/-- The exponent of a positive ratio. -/
theorem floorLog2_spec {num den : Nat} (hnum : 0 < num) (hden : 0 < den) :
    (2 : ℚ) ^ floorLog2 num den ≤ (num : ℚ) / den ∧
      (num : ℚ) / den < 2 ^ (floorLog2 num den + 1) := by
  have hden' : (0 : ℚ) < den := by exact_mod_cast hden
  have hnumLow : (2 : ℚ) ^ (num.log2 : ℤ) ≤ num := by
    exact_mod_cast Nat.log2_self_le hnum.ne'
  have hnumHigh : (num : ℚ) < 2 ^ ((num.log2 : ℤ) + 1) := by
    exact_mod_cast Nat.lt_log2_self
  have hdenLow : (2 : ℚ) ^ (den.log2 : ℤ) ≤ den := by
    exact_mod_cast Nat.log2_self_le hden.ne'
  have hdenHigh : (den : ℚ) < 2 ^ ((den.log2 : ℤ) + 1) := by
    exact_mod_cast Nat.lt_log2_self
  have hlow : (2 : ℚ) ^ ((num.log2 : ℤ) - den.log2 - 1) ≤ (num : ℚ) / den := by
    rw [le_div_iff₀ hden']
    calc (2 : ℚ) ^ ((num.log2 : ℤ) - den.log2 - 1) * den
        ≤ 2 ^ ((num.log2 : ℤ) - den.log2 - 1) * 2 ^ ((den.log2 : ℤ) + 1) := by gcongr
      _ = 2 ^ (num.log2 : ℤ) := by
        rw [← zpow_add₀ two_ne_zero]
        congr 1
        ring
      _ ≤ num := hnumLow
  have hhigh : (num : ℚ) / den < 2 ^ ((num.log2 : ℤ) - den.log2 + 1) := by
    rw [div_lt_iff₀ hden']
    calc (num : ℚ) < 2 ^ ((num.log2 : ℤ) + 1) := hnumHigh
      _ = 2 ^ ((num.log2 : ℤ) - den.log2 + 1) * 2 ^ (den.log2 : ℤ) := by
        rw [← zpow_add₀ two_ne_zero]
        congr 1
        ring
      _ ≤ 2 ^ ((num.log2 : ℤ) - den.log2 + 1) * den := by gcongr
  unfold floorLog2
  simp only [shift_lt_shift_iff hden]
  split
  next hless => exact ⟨hlow, by simpa using hless⟩
  next hless => exact ⟨not_lt.1 hless, hhigh⟩

theorem hiddenBit_eq (p : Precision) : p.hiddenBit = 2 ^ p.fractionBits := Nat.one_shiftLeft _

theorem hiddenBit_pos (p : Precision) : 0 < p.hiddenBit := by
  rw [hiddenBit_eq]
  exact Nat.two_pow_pos _

theorem minExponent_le_exponent (p : Precision) (word : Nat) : p.minExponent ≤ p.exponent word := by
  unfold exponent
  omega

/-- The significand of a magnitude below infinity lies below twice the hidden bit. It lies below the
hidden bit only if the exponent is the least one. -/
theorem significand_bounds (p : Precision) (word : Nat) : p.significand word < 2 * p.hiddenBit ∧
    (p.exponent word = p.minExponent ∨ p.hiddenBit ≤ p.significand word) := by
  have hpos := p.hiddenBit_pos
  unfold significand exponent
  split
  next hsmall =>
    refine ⟨by omega, .inl ?_⟩
    rw [Nat.div_eq_of_lt hsmall]
    simp
  next hlarge =>
    have hrest := Nat.mod_lt word hpos
    exact ⟨by omega, .inr (by omega)⟩

/-- A magnitude word is its exponent field followed by its significand. -/
theorem exponent_significand (p : Precision) (word : Nat) :
    (p.exponent word - p.minExponent).toNat * p.hiddenBit + p.significand word = word := by
  have hpos := p.hiddenBit_pos
  have hfield : (p.exponent word - p.minExponent).toNat = word / p.hiddenBit - 1 := by
    unfold exponent
    omega
  rw [hfield]
  unfold significand
  split
  next hsmall => rw [Nat.div_eq_of_lt hsmall, Nat.zero_sub, Nat.zero_mul, Nat.zero_add]
  next hlarge =>
    have hquotient : 1 ≤ word / p.hiddenBit := (Nat.one_le_div_iff hpos).2 (Nat.not_lt.1 hlarge)
    calc (word / p.hiddenBit - 1) * p.hiddenBit + (p.hiddenBit + word % p.hiddenBit)
        = (word / p.hiddenBit - 1 + 1) * p.hiddenBit + word % p.hiddenBit := by ring
      _ = p.hiddenBit * (word / p.hiddenBit) + word % p.hiddenBit := by
        rw [Nat.sub_add_cancel hquotient, Nat.mul_comm]
      _ = word := Nat.div_add_mod word p.hiddenBit

/-! ## Rounding -/

/-- The grid on which a ratio with the value of a word is rounded is that of the word. -/
theorem unit_eq_exponent {num den word : Nat} (hnum : 0 < num) (hden : 0 < den)
    (h : (num : ℚ) / den = p.value word) :
    max (floorLog2 num den - p.fractionBits) p.minExponent = p.exponent word := by
  obtain ⟨hlow, hhigh⟩ := floorLog2_spec hnum hden
  obtain ⟨hsignificand, hnormal⟩ := p.significand_bounds word
  have hleast := p.minExponent_le_exponent word
  have hscale : (0 : ℚ) < 2 ^ p.exponent word := by positivity
  rw [h, value] at hlow hhigh
  rw [hiddenBit_eq] at hsignificand hnormal
  have habove : floorLog2 num den < p.fractionBits + 1 + p.exponent word := by
    have hless : (2 : ℚ) ^ floorLog2 num den < 2 ^ (p.fractionBits + 1 + p.exponent word) := by
      calc (2 : ℚ) ^ floorLog2 num den ≤ p.significand word * 2 ^ p.exponent word := hlow
        _ < (2 * 2 ^ p.fractionBits : ℕ) * 2 ^ p.exponent word := by gcongr
        _ = 2 ^ (p.fractionBits + 1 + p.exponent word) := by
          rw [zpow_add₀ two_ne_zero, zpow_add₀ two_ne_zero, zpow_natCast]
          push_cast
          ring
    exact (zpow_lt_zpow_iff_right₀ one_lt_two).1 hless
  rcases hnormal with hminimum | hnormal
  · omega
  · have hbelow : p.fractionBits + p.exponent word < floorLog2 num den + 1 := by
      have hless : (2 : ℚ) ^ (p.fractionBits + p.exponent word) < 2 ^ (floorLog2 num den + 1) := by
        calc (2 : ℚ) ^ (p.fractionBits + p.exponent word)
            = (2 ^ p.fractionBits : ℕ) * 2 ^ p.exponent word := by
              rw [zpow_add₀ two_ne_zero, zpow_natCast]
              push_cast
              ring
          _ ≤ p.significand word * 2 ^ p.exponent word := by gcongr
          _ < 2 ^ (floorLog2 num den + 1) := hhigh
      exact (zpow_lt_zpow_iff_right₀ one_lt_two).1 hless
    omega

/-- A ratio that has the value of a magnitude is rounded to this magnitude. Infinity has the value
of the power of two behind the largest finite number. -/
theorem ofRatio_of_eq_value {num den word : Nat} (hden : 0 < den) (hword : word ≤ p.infinity)
    (h : (num : ℚ) / den = p.value word) : p.ofRatio num den = word := by
  have hwhole := p.exponent_significand word
  have hscale : (2 : ℚ) ^ p.exponent word ≠ 0 := by positivity
  rcases Nat.eq_zero_or_pos num with rfl | hnum
  · have hzero : p.significand word = 0 := by
      rw [Nat.cast_zero, zero_div, value, eq_comm, mul_eq_zero, or_iff_left hscale] at h
      exact_mod_cast h
    have hexponent : p.exponent word = p.minExponent := by
      have hpos := p.hiddenBit_pos
      have hnormal := (p.significand_bounds word).2
      omega
    rw [hexponent, hzero, Int.sub_self, Int.toNat_zero, Nat.zero_mul, Nat.add_zero] at hwhole
    rw [ofRatio, if_pos rfl, hwhole]
  · have hrounded := shift_eq_mul_shift hden h
    have hpos : 0 < den <<< (p.exponent word).toNat := by
      rw [Nat.shiftLeft_eq]
      positivity
    simp only [ofRatio, if_neg hnum.ne', unit_eq_exponent hnum hden h]
    rw [hrounded, Tie.quotient_mul_right _ _ hpos, hwhole]
    exact Nat.min_eq_right hword

/-- The ratio of a finite magnitude has its value. -/
theorem ratio_eq_value (p : Precision) (word : Nat) :
    ((p.ratio word).1 : ℚ) / (p.ratio word).2 = p.value word := by
  have hscale : (2 : ℚ) ^ (-p.exponent word).toNat ≠ 0 := by positivity
  simp only [ratio, Nat.shiftLeft_eq, one_mul, value]
  push_cast
  rw [div_eq_iff hscale, zpow_toNat two_ne_zero, mul_assoc]

theorem ratio_den_pos (p : Precision) (word : Nat) : 0 < (p.ratio word).2 := by
  simp only [ratio, Nat.shiftLeft_eq, one_mul]
  positivity

/-! ## Numbers that a format holds -/

theorem infinity_eq (p : Precision) : p.infinity = p.topField * p.hiddenBit := by
  rw [infinity, Nat.shiftLeft_eq, hiddenBit_eq]

/-- The word of a significand on the grid of an exponent. -/
theorem value_word {k m : Nat} (hm : m < 2 * p.hiddenBit) (hnormal : k = 0 ∨ p.hiddenBit ≤ m) :
    p.value (k * p.hiddenBit + m) = m * 2 ^ (p.minExponent + k) := by
  have hpos := p.hiddenBit_pos
  rcases Nat.lt_or_ge m p.hiddenBit with hsmall | hlarge
  · obtain rfl : k = 0 := hnormal.resolve_right (Nat.not_le.2 hsmall)
    simp [value, significand, exponent, hsmall, Nat.div_eq_of_lt hsmall]
  · have hword : k * p.hiddenBit + m = (m - p.hiddenBit) + (k + 1) * p.hiddenBit := by
      rw [Nat.succ_mul]
      omega
    have hfraction : m - p.hiddenBit < p.hiddenBit := by omega
    have hquotient : (k * p.hiddenBit + m) / p.hiddenBit = k + 1 := by
      rw [hword, Nat.add_mul_div_right _ _ hpos, Nat.div_eq_of_lt hfraction, Nat.zero_add]
    have hrest : (k * p.hiddenBit + m) % p.hiddenBit = m - p.hiddenBit := by
      rw [hword, Nat.add_mul_mod_self_right, Nat.mod_eq_of_lt hfraction]
    have hsignificand : p.significand (k * p.hiddenBit + m) = m := by
      rw [significand, if_neg (by omega), hrest]
      omega
    have hexponent : p.exponent (k * p.hiddenBit + m) = p.minExponent + k := by
      rw [exponent, hquotient, Nat.add_sub_cancel]
    rw [value, hsignificand, hexponent]

/-- A format holds every number whose significand has at most its bits and whose exponent lies in
its range. A significand with too few bits is doubled until it has all of them, or until the
exponent is the least one. -/
theorem exists_value_eq {k m : Nat} (hm : m < 2 * p.hiddenBit) (hk : k + 2 ≤ p.topField) :
    ∃ word < p.infinity, p.value word = m * 2 ^ (p.minExponent + k) := by
  have hbound : ∀ {k m : Nat}, m < 2 * p.hiddenBit → k + 2 ≤ p.topField →
      k * p.hiddenBit + m < p.infinity := by
    intro k m hm hk
    calc k * p.hiddenBit + m < k * p.hiddenBit + 2 * p.hiddenBit := by omega
      _ = (k + 2) * p.hiddenBit := by ring
      _ ≤ p.infinity := p.infinity_eq ▸ Nat.mul_le_mul_right _ hk
  induction k generalizing m with
  | zero => exact ⟨_, hbound hm hk, value_word hm (.inl rfl)⟩
  | succ k ih =>
    rcases Nat.lt_or_ge m p.hiddenBit with hsmall | hlarge
    · obtain ⟨word, hword, hvalue⟩ := ih (m := 2 * m) (by omega) (by omega)
      refine ⟨word, hword, ?_⟩
      calc p.value word = (2 * m : ℕ) * 2 ^ (p.minExponent + k) := hvalue
        _ = m * (2 ^ (p.minExponent + k) * 2) := by
          push_cast
          ring
        _ = m * 2 ^ (p.minExponent + (k + 1 : ℕ)) := by
          rw [← zpow_add_one₀ two_ne_zero]
          push_cast
          rw [add_assoc]
    · exact ⟨_, hbound hm hk, value_word hm (.inr hlarge)⟩

end LasFile.Precision
