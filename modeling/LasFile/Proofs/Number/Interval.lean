import LasFile.Number.Decimal
import LasFile.Proofs.Number.Order
import Mathlib.Tactic.Linarith

/-!
# The interval around a number

The decimals of a number are taken from the interval of the ratios that are rounded to it. The
interval reaches half a unit in its last place up and down, and a quarter down from a power of two,
below which the grid is finer. Its ends belong to it if the significand is even.
-/

namespace LasFile

/-- A quotient at most half a unit from a whole number, and nearer if that is odd, is rounded to
it. -/
theorem Tie.even_quotient_eq {num den n : ℕ} (hden : 0 < den)
    (hlow : 2 * (n * den) ≤ 2 * num + den) (hhigh : 2 * num ≤ 2 * (n * den) + den)
    (hodd : n % 2 = 1 → 2 * (n * den) < 2 * num + den ∧ 2 * num < 2 * (n * den) + den) :
    Tie.even.quotient num den = n := by
  have hsum := Nat.div_add_mod num den
  -- Below `n` the division leaves half of `den` at least, above `n` it leaves half at most.
  rcases Nat.lt_or_ge num (n * den) with hless | hmore
  · obtain ⟨m, rfl⟩ : ∃ m, n = m + 1 := Nat.exists_eq_succ_of_ne_zero (by rintro rfl; omega)
    have hsucc : (m + 1) * den = m * den + den := Nat.succ_mul m den
    have hfloor : num / den = m := Nat.div_eq_of_lt_le (by omega) hless
    rw [hfloor, Nat.mul_comm] at hsum
    simp only [quotient, hfloor, goesUp]
    rw [hsucc] at hlow hhigh hodd
    generalize m * den = whole at *
    generalize num % den = rest at *
    split
    next => rfl
    next =>
      simp only [Bool.and_eq_true, decide_eq_true_eq, beq_iff_eq]
      split <;> omega
  · have hsucc : (n + 1) * den = n * den + den := Nat.succ_mul n den
    have hfloor : num / den = n := Nat.div_eq_of_lt_le hmore (by omega)
    rw [hfloor, Nat.mul_comm] at hsum
    simp only [quotient, hfloor, goesUp]
    generalize n * den = whole at *
    generalize num % den = rest at *
    split
    next => omega
    next =>
      simp only [Bool.and_eq_true, decide_eq_true_eq, beq_iff_eq]
      split <;> omega

namespace Precision

variable {num den : ℕ}

/-- A ratio near a multiple of a power of two is rounded to it on the grid of this power. -/
theorem rounded_eq {n : ℕ} (hden : 0 < den) {unit : ℤ}
    (hlow : (n - 1 / 2 : ℚ) * 2 ^ unit ≤ num / den)
    (hhigh : (num : ℚ) / den ≤ (n + 1 / 2) * 2 ^ unit)
    (hodd : n % 2 = 1 → (n - 1 / 2 : ℚ) * 2 ^ unit < num / den ∧
      (num : ℚ) / den < (n + 1 / 2) * 2 ^ unit) : rounded num den unit = n := by
  have hscale : (0 : ℚ) < 2 ^ unit := by positivity
  have hside := shift_pos hden unit
  have hside' : (0 : ℚ) < (den <<< unit.toNat : ℕ) := by exact_mod_cast hside
  have hratio := shift_div_shift num den unit
  rw [← le_div_iff₀ hscale, ← hratio, le_div_iff₀ hside'] at hlow
  rw [← div_le_iff₀ hscale, ← hratio, div_le_iff₀ hside'] at hhigh
  rw [← lt_div_iff₀ hscale, ← div_lt_iff₀ hscale, ← hratio, lt_div_iff₀ hside',
    div_lt_iff₀ hside'] at hodd
  rw [rounded]
  generalize num <<< (-unit).toNat = top at *
  generalize den <<< unit.toNat = bottom at *
  apply Tie.even_quotient_eq hside
  · have : (2 * (n * bottom) : ℚ) ≤ 2 * top + bottom := by linarith
    exact_mod_cast this
  · have : (2 * top : ℚ) ≤ 2 * (n * bottom) + bottom := by linarith
    exact_mod_cast this
  · intro h
    obtain ⟨hless, hmore⟩ := hodd h
    have hbelow : (2 * (n * bottom) : ℚ) < 2 * top + bottom := by linarith
    have habove : (2 * top : ℚ) < 2 * (n * bottom) + bottom := by linarith
    exact ⟨by exact_mod_cast hbelow, by exact_mod_cast habove⟩

theorem floorLog2_lt_iff (hnum : 0 < num) (hden : 0 < den) (k : ℤ) :
    floorLog2 num den < k ↔ (num : ℚ) / den < 2 ^ k := by
  obtain ⟨hlow, hhigh⟩ := floorLog2_spec hnum hden
  constructor
  · intro hless
    exact hhigh.trans_le (zpow_le_zpow_right₀ one_le_two hless)
  · intro hless
    exact (zpow_lt_zpow_iff_right₀ one_lt_two).1 (hlow.trans_lt hless)

theorem hiddenBit_mul_zpow (p : Precision) (e : ℤ) :
    (p.hiddenBit : ℚ) * 2 ^ e = 2 ^ (p.fractionBits + e) := by
  rw [hiddenBit_eq, zpow_add₀ two_ne_zero, zpow_natCast]
  push_cast
  rfl

end Precision

namespace Decimal

/-- The number that a decimal stands for. -/
def value (d : Decimal) : ℚ := d.digits * 10 ^ d.exponent

namespace Interval

/-- The numbers of an interval. The ends are among them if it is closed. -/
structure Holds (i : Interval) (q : ℚ) : Prop where
  low : i.low * 2 ^ i.exponent ≤ q
  high : q ≤ i.high * 2 ^ i.exponent
  interior : i.closed = false → i.low * 2 ^ i.exponent < q ∧ q < i.high * 2 ^ i.exponent

/-- The middle lies inside, at most two quarters from the lower end and two from the upper one. -/
structure Proper (i : Interval) : Prop where
  low_pos : 0 < i.low
  low_lt : i.low < i.middle
  high_eq : i.high = i.middle + 2

end Interval

/-! ## The interval of a word -/

variable {p : Precision} {word : ℕ}

/-- The interval of a positive word. -/
theorem proper_interval (hword : 0 < word) : (interval p word).Proper := by
  have hpos := p.hiddenBit_pos
  have hsignificand : 0 < p.significand word := by
    unfold Precision.significand
    split <;> omega
  refine ⟨?_, ?_, rfl⟩ <;> simp only [interval] <;> split <;> omega

theorem quarter_zpow (e : ℤ) : (2 : ℚ) ^ (e - 2) = 2 ^ e / 4 := by
  rw [zpow_sub₀ two_ne_zero]
  norm_num

/-- The interval of a word reaches half a unit up and at most as far down. -/
theorem Interval.Holds.bounds {q : ℚ} (h : (interval p word).Holds q) :
    (p.significand word - 1 / 2 : ℚ) * 2 ^ p.exponent word ≤ q ∧
      q ≤ (p.significand word + 1 / 2) * 2 ^ p.exponent word ∧
      (p.significand word % 2 = 1 → (p.significand word - 1 / 2 : ℚ) * 2 ^ p.exponent word < q ∧
        q < (p.significand word + 1 / 2) * 2 ^ p.exponent word) := by
  obtain ⟨hlow, hhigh, hinterior⟩ := h
  have hclosed : p.significand word % 2 = 1 → (interval p word).closed = false := by
    intro hodd
    simp [interval, hodd]
  have hhalf : 4 * p.significand word ≤ (interval p word).low + 2 := by
    simp only [interval]
    split <;> omega
  have hleast : (p.significand word - 1 / 2 : ℚ) * 2 ^ p.exponent word ≤
      (interval p word).low * 2 ^ (interval p word).exponent := by
    have hhalf' : (4 * p.significand word : ℚ) ≤ (interval p word).low + 2 := by
      exact_mod_cast hhalf
    calc (p.significand word - 1 / 2 : ℚ) * 2 ^ p.exponent word
        = (4 * p.significand word - 2) * (2 ^ p.exponent word / 4) := by ring
      _ ≤ (interval p word).low * (2 ^ p.exponent word / 4) :=
        mul_le_mul_of_nonneg_right (by linarith) (by positivity)
      _ = (interval p word).low * 2 ^ (interval p word).exponent := by
        rw [← quarter_zpow]
        rfl
  have hmost : ((interval p word).high : ℚ) * 2 ^ (interval p word).exponent =
      (p.significand word + 1 / 2) * 2 ^ p.exponent word := by
    simp only [interval, quarter_zpow]
    push_cast
    ring
  rw [hmost] at hhigh hinterior
  exact ⟨hleast.trans hlow, hhigh, fun hodd ↦
    ⟨hleast.trans_lt (hinterior (hclosed hodd)).1, (hinterior (hclosed hodd)).2⟩⟩

/-- Just below the first word of an exponent the interval reaches a quarter of a unit down. -/
theorem Interval.Holds.narrow {q : ℚ} (h : (interval p word).Holds q)
    (hexponent : p.minExponent < p.exponent word) (hfirst : p.significand word = p.hiddenBit) :
    (p.hiddenBit - 1 / 4 : ℚ) * 2 ^ p.exponent word ≤ q := by
  have hpos := p.hiddenBit_pos
  have hlarge : 2 * p.hiddenBit ≤ word := by
    rw [← Nat.le_div_iff_mul_le hpos]
    unfold Precision.exponent at hexponent
    omega
  have hrest : word % p.hiddenBit = 0 := by
    rw [Precision.significand, if_neg (by omega)] at hfirst
    omega
  have hlow : (interval p word).low = 4 * p.hiddenBit - 1 := by
    have habove : p.hiddenBit < word := by omega
    simp [interval, hrest, habove, hfirst]
  have hlow' : ((interval p word).low : ℚ) = 4 * p.hiddenBit - 1 := by
    rw [hlow, Nat.cast_sub (by omega)]
    push_cast
    rfl
  calc (p.hiddenBit - 1 / 4 : ℚ) * 2 ^ p.exponent word
      = (interval p word).low * 2 ^ (interval p word).exponent := by
        rw [hlow', show (interval p word).exponent = p.exponent word - 2 from rfl, quarter_zpow]
        ring
    _ ≤ q := h.low

/-- The interval of a word that is not the first one of its exponent does not reach below it. -/
theorem Interval.Holds.first_le {q : ℚ} (h : (interval p word).Holds q)
    (hmore : p.hiddenBit < p.significand word) :
    (p.hiddenBit : ℚ) * 2 ^ p.exponent word ≤ q := by
  have hnext : (p.hiddenBit + 1 : ℚ) ≤ p.significand word := by exact_mod_cast hmore
  refine le_trans ?_ h.bounds.1
  exact mul_le_mul_of_nonneg_right (by linarith) (by positivity)

theorem Interval.Holds.num_pos {num den : ℕ} (h : (interval p word).Holds (num / den))
    (hden : 0 < den) (hpos : 0 < word) : 0 < num := by
  have hlow := (proper_interval (p := p) hpos).low_pos
  have hlow' : (0 : ℚ) < (interval p word).low * 2 ^ (interval p word).exponent := by positivity
  have hratio := (div_pos_iff_of_pos_right (by exact_mod_cast hden)).1 (hlow'.trans_le h.low)
  exact_mod_cast hratio

/-- The numbers of an interval lie below the next exponent but one. -/
theorem Interval.Holds.lt_next {q : ℚ} (h : (interval p word).Holds q) :
    q < 2 ^ (p.fractionBits + (p.exponent word + 1)) := by
  have hmost := (p.significand_bounds word).1
  have hsignificand : (p.significand word : ℚ) + 1 ≤ 2 * p.hiddenBit := by exact_mod_cast hmost
  rw [← p.hiddenBit_mul_zpow, zpow_add_one₀ two_ne_zero]
  calc q ≤ (p.significand word + 1 / 2) * 2 ^ p.exponent word := h.bounds.2.1
    _ < 2 * p.hiddenBit * 2 ^ p.exponent word :=
      mul_lt_mul_of_pos_right (by linarith) (by positivity)
    _ = p.hiddenBit * (2 ^ p.exponent word * 2) := by ring

/-- The numbers below the first word of an exponent have the next smaller exponent. -/
theorem Interval.Holds.previous_le {q : ℚ} (h : (interval p word).Holds q)
    (hexponent : p.minExponent < p.exponent word) (hfirst : p.significand word = p.hiddenBit) :
    (2 : ℚ) ^ (p.fractionBits + (p.exponent word - 1)) ≤ q := by
  have hone : (1 : ℚ) ≤ p.hiddenBit := by exact_mod_cast p.hiddenBit_pos
  rw [← p.hiddenBit_mul_zpow, zpow_sub_one₀ two_ne_zero]
  calc (p.hiddenBit : ℚ) * (2 ^ p.exponent word * 2⁻¹)
      = p.hiddenBit / 2 * 2 ^ p.exponent word := by ring
    _ ≤ (p.hiddenBit - 1 / 4) * 2 ^ p.exponent word :=
      mul_le_mul_of_nonneg_right (by linarith) (by positivity)
    _ ≤ q := h.narrow hexponent hfirst

/-- A ratio in the interval of a word is rounded on the grid of the word, or on the next finer one
if it is below the first word of an exponent. -/
theorem unit_of_holds {num den : ℕ} (hden : 0 < den) (hpos : 0 < word)
    (h : (interval p word).Holds (num / den)) : p.unit num den = p.exponent word ∨
      p.unit num den = p.exponent word - 1 ∧ p.minExponent < p.exponent word ∧
        p.significand word = p.hiddenBit ∧
        (num : ℚ) / den < p.hiddenBit * 2 ^ p.exponent word := by
  have hnum := h.num_pos hden hpos
  have hleast := p.minExponent_le_exponent word
  have hunder := (Precision.floorLog2_lt_iff hnum hden _).2 h.lt_next
  unfold Precision.unit
  by_cases hminimum : p.exponent word = p.minExponent
  · left
    omega
  by_cases hfirst : (p.hiddenBit : ℚ) * 2 ^ p.exponent word ≤ num / den
  · rw [p.hiddenBit_mul_zpow, ← not_lt, ← Precision.floorLog2_lt_iff hnum hden] at hfirst
    left
    omega
  · have hexponent : p.minExponent < p.exponent word := lt_of_le_of_ne hleast (Ne.symm hminimum)
    have hsame : p.significand word = p.hiddenBit := by
      refine le_antisymm (not_lt.1 fun hmore ↦ hfirst (h.first_le hmore)) ?_
      exact (p.significand_bounds word).2.resolve_left hminimum
    have hprevious := h.previous_le hexponent hsame
    rw [← not_lt, ← Precision.floorLog2_lt_iff hnum hden] at hprevious
    have hless := not_le.1 hfirst
    have hfloor := hless
    rw [p.hiddenBit_mul_zpow, ← Precision.floorLog2_lt_iff hnum hden] at hfloor
    right
    exact ⟨by omega, hexponent, hsame, hless⟩

/-- A ratio in the interval of a word is rounded to the word. -/
theorem ofRatio_of_holds {num den : ℕ} (hden : 0 < den) (hpos : 0 < word)
    (hword : word < p.infinity) (h : (interval p word).Holds (num / den)) :
    p.ofRatio num den = word := by
  have hwhole := p.exponent_significand word
  obtain ⟨hlow, hhigh, hodd⟩ := h.bounds
  have hnum := h.num_pos hden hpos
  obtain hunit | ⟨hunit, hexponent, hfirst, hless⟩ := unit_of_holds hden hpos h
  · rw [p.ofRatio_of_pos hnum, hunit, Precision.rounded_eq hden hlow hhigh hodd, hwhole]
    exact Nat.min_eq_right hword.le
  · -- On the finer grid the word is twice the hidden bit, which carries into the exponent.
    have hnarrow := h.narrow hexponent hfirst
    have hscale : (2 : ℚ) ^ p.exponent word = 2 * 2 ^ (p.exponent word - 1) := by
      rw [← zpow_one_add₀ two_ne_zero]
      congr 1
      ring
    have hrounded : Precision.rounded num den (p.exponent word - 1) = 2 * p.hiddenBit := by
      apply Precision.rounded_eq hden
      · rw [hscale] at hnarrow
        push_cast
        linarith
      · rw [hscale] at hless
        have hpositive : (0 : ℚ) < 2 ^ (p.exponent word - 1) := by positivity
        push_cast
        linarith
      · omega
    have hfields : (p.exponent word - 1 - p.minExponent).toNat + 1 =
        (p.exponent word - p.minExponent).toNat := by omega
    rw [← hfields, hfirst] at hwhole
    rw [p.ofRatio_of_pos hnum, hunit, hrounded]
    have hsame : (p.exponent word - 1 - p.minExponent).toNat * p.hiddenBit + 2 * p.hiddenBit =
        word := by
      rw [Nat.succ_mul] at hwhole
      omega
    rw [hsame]
    exact Nat.min_eq_right hword.le

end Decimal

end LasFile
