import LasFile.Proofs.Number.Rational
import Mathlib.Tactic.Linarith

/-!
# Nearest words

The word that a ratio is rounded to, said without the rounding: no other word of the format is
nearer, and of two that are equally near the even one is taken. There is one such word for every
number that is not negative. The doubles of ratios are rounded in this sense, and a finite double
becomes the single whose magnitude is nearest to its own and that has its sign.
-/

namespace LasFile

/-- A quotient halfway between two whole numbers goes to the even one. -/
theorem Tie.even_of_tie {num den n : ℕ} (hden : 0 < den) (hn : Tie.even.quotient num den = n)
    (h : 2 * num = (2 * n + 1) * den ∨ 2 * (n * den) = 2 * num + den) : n % 2 = 0 := by
  have hsum := Nat.div_add_mod num den
  have hrest := Nat.mod_lt num hden
  unfold quotient at hn
  simp only [goesUp, Bool.and_eq_true, decide_eq_true_eq, beq_iff_eq] at hn
  generalize num / den = lower at *
  generalize num % den = rest at *
  have hcomm : lower * den = den * lower := Nat.mul_comm _ _
  split at hn
  next hmore =>
    subst hn hsum
    simp only [Nat.add_mul, Nat.mul_assoc, hcomm] at h
    omega
  next hmore =>
    split at hn
    next htie =>
      subst hn
      omega
    next htie =>
      subst hn hsum
      simp only [Nat.add_mul, Nat.mul_assoc, hcomm] at h
      omega

/-- A quotient is at most half a unit away from the whole number that it is rounded to, and that is
even if it is that far. -/
theorem Tie.even_quotient_within (num : ℕ) {den : ℕ} (hden : 0 < den) :
    |(num : ℚ) / den - Tie.even.quotient num den| ≤ 1 / 2 ∧
      (|(num : ℚ) / den - Tie.even.quotient num den| = 1 / 2 →
        Tie.even.quotient num den % 2 = 0) := by
  have hden' : (0 : ℚ) < den := by exact_mod_cast hden
  obtain ⟨hhigh, hlow⟩ := Tie.even.quotient_within num hden
  have heven := even_of_tie hden (Eq.refl (Tie.even.quotient num den))
  generalize Tie.even.quotient num den = n at *
  have habove : (num : ℚ) / den ≤ n + 1 / 2 := by
    rw [div_le_iff₀ hden']
    have : (2 * num : ℚ) ≤ (2 * n + 1) * den := by exact_mod_cast hhigh
    linarith
  have hbelow : (n : ℚ) - 1 / 2 ≤ num / den := by
    rw [le_div_iff₀ hden']
    have : (2 : ℚ) * (n * den) ≤ 2 * num + den := by exact_mod_cast hlow
    linarith
  refine ⟨abs_le.2 ⟨by linarith, by linarith⟩, fun htie ↦ heven ?_⟩
  rcases (abs_eq (by norm_num)).1 htie with hup | hdown
  · have hratio : (num : ℚ) = (n + 1 / 2) * den := (div_eq_iff hden'.ne').1 (by linarith)
    left
    have : (2 * num : ℚ) = (2 * n + 1) * den := by linarith
    exact_mod_cast this
  · have hratio : (num : ℚ) = (n - 1 / 2) * den := (div_eq_iff hden'.ne').1 (by linarith)
    right
    have : (2 : ℚ) * (n * den) = 2 * num + den := by linarith
    exact_mod_cast this

namespace Precision

variable {p : Precision} {num den : ℕ}

/-! ## Values of words -/

/-- The values of words are ordered as the words are, that of infinity behind the others. -/
theorem value_lt_value {a b : ℕ} (h : a < b) (hb : b ≤ p.infinity) : p.value a < p.value b := by
  by_contra hless
  have hmono := p.keepsOrder.mono (p.ratio_den_pos b) (p.ratio_den_pos a)
    (by rw [ratio_eq_value, ratio_eq_value]; exact not_lt.1 hless)
  rw [ofRatio_of_eq_value (p.ratio_den_pos b) hb (p.ratio_eq_value b),
    ofRatio_of_eq_value (p.ratio_den_pos a) (h.le.trans hb) (p.ratio_eq_value a)] at hmono
  omega

theorem value_le_value {a b : ℕ} (h : a ≤ b) (hb : b ≤ p.infinity) : p.value a ≤ p.value b := by
  rcases h.lt_or_eq with hless | rfl
  · exact (value_lt_value hless hb).le
  · exact le_rfl

/-- The word nearest to a number that is not negative. Infinity takes part with its value, which is
the power of two behind the largest finite number, and of two words that are equally near the even
one is taken. -/
structure IsNearest (p : Precision) (q : ℚ) (word : ℕ) : Prop where
  le_infinity : word ≤ p.infinity
  nearest : ∀ other ≤ p.infinity, |q - p.value word| ≤ |q - p.value other|
  even : ∀ other ≤ p.infinity, other ≠ word → |q - p.value other| = |q - p.value word| →
    word % 2 = 0

namespace IsNearest

variable {q : ℚ} {a b : ℕ}

/-- Between two words that are equally near there is a third one, as both are even, and it is
nearer. -/
theorem le (ha : p.IsNearest q a) (hb : p.IsNearest q b) : a ≤ b := by
  by_contra hless
  have hbelow : b < a := not_le.1 hless
  have hsame : |q - p.value a| = |q - p.value b| :=
    le_antisymm (ha.nearest b hb.le_infinity) (hb.nearest a ha.le_infinity)
  have heven := ha.even b hb.le_infinity hbelow.ne hsame.symm
  have heven' := hb.even a ha.le_infinity hbelow.ne' hsame
  have hnext : b + 1 < a := by omega
  have hfinite : b + 1 ≤ p.infinity := hnext.le.trans ha.le_infinity
  have hlow := value_lt_value (Nat.lt_succ_self b) hfinite
  have hhigh := value_lt_value hnext ha.le_infinity
  have hopposite : q - p.value b = -(q - p.value a) :=
    (abs_eq_abs.1 hsame.symm).resolve_left fun heq ↦ (hlow.trans hhigh).ne (by linarith)
  have hmiddle := hb.nearest (b + 1) hfinite
  rw [abs_of_pos (by linarith : 0 < q - p.value b)] at hmiddle
  rcases abs_cases (q - p.value (b + 1)) with ⟨habs, -⟩ | ⟨habs, -⟩ <;> linarith

theorem unique (ha : p.IsNearest q a) (hb : p.IsNearest q b) : a = b :=
  le_antisymm (ha.le hb) (hb.le ha)

end IsNearest

/-! ## Rounding -/

/-- A significand is at most half a unit away from the ratio, and it is even if it is that far. -/
theorem rounded_within (num : ℕ) (hden : 0 < den) (unit : ℤ) :
    |(num : ℚ) / den - rounded num den unit * 2 ^ unit| ≤ 2 ^ unit / 2 ∧
      (|(num : ℚ) / den - rounded num den unit * 2 ^ unit| = 2 ^ unit / 2 →
        rounded num den unit % 2 = 0) := by
  have hscale : (0 : ℚ) < 2 ^ unit := by positivity
  obtain ⟨hnear, heven⟩ :=
    Tie.even_quotient_within (num <<< (-unit).toNat) (shift_pos hden unit)
  rw [shift_div_shift] at hnear heven
  have hdistance : |(num : ℚ) / den - rounded num den unit * 2 ^ unit| =
      |(num : ℚ) / den / 2 ^ unit - rounded num den unit| * 2 ^ unit := by
    rw [← abs_of_pos hscale, ← abs_mul, abs_of_pos hscale, sub_mul, div_mul_cancel₀ _ hscale.ne']
  rw [hdistance]
  constructor
  · calc |(num : ℚ) / den / 2 ^ unit - rounded num den unit| * 2 ^ unit
        ≤ 1 / 2 * 2 ^ unit := mul_le_mul_of_nonneg_right hnear hscale.le
      _ = 2 ^ unit / 2 := by ring
  · intro htie
    apply heven
    apply mul_right_cancel₀ hscale.ne'
    rw [one_div, inv_mul_eq_div]
    exact htie

/-- The value of a significand behind an exponent field, into which twice the hidden bit carries. -/
theorem value_add {k m : ℕ} (hm : m ≤ 2 * p.hiddenBit) (hnormal : k = 0 ∨ p.hiddenBit ≤ m) :
    p.value (k * p.hiddenBit + m) = m * 2 ^ (p.minExponent + k) := by
  rcases hm.lt_or_eq with hless | rfl
  · exact value_word hless hnormal
  · have hpos := p.hiddenBit_pos
    have hword : k * p.hiddenBit + 2 * p.hiddenBit = (k + 1) * p.hiddenBit + p.hiddenBit := by ring
    rw [hword, value_word (by omega) (.inr le_rfl)]
    push_cast
    rw [← add_assoc, zpow_add_one₀ two_ne_zero]
    ring

/-- A number at most half of `d` away from `a` is no nearer to what is `d` away from that. -/
theorem abs_sub_le_of_apart {q a b d : ℚ} (hnear : |q - a| ≤ d / 2)
    (h : b + d ≤ a ∨ a + d ≤ b) :
    |q - a| ≤ |q - b| ∧ (|q - b| = |q - a| → |q - a| = d / 2) := by
  obtain ⟨hlow, hhigh⟩ := abs_le.1 hnear
  rcases h with hbelow | habove
  · have hfar : d / 2 ≤ q - b := by linarith
    have hdistance := hfar.trans (le_abs_self (q - b))
    exact ⟨hnear.trans hdistance, fun hsame ↦ le_antisymm hnear (hsame ▸ hdistance)⟩
  · have hfar : d / 2 ≤ -(q - b) := by linarith
    have hdistance := hfar.trans (neg_le_abs (q - b))
    exact ⟨hnear.trans hdistance, fun hsame ↦ le_antisymm hnear (hsame ▸ hdistance)⟩

/-- A number on the far side of `a` is nearer to `a` than to `b`. -/
theorem abs_sub_lt_of_side {q a b : ℚ} (h : b < a ∧ a ≤ q ∨ a < b ∧ q ≤ a) :
    |q - a| < |q - b| := by
  rcases h with ⟨hless, hside⟩ | ⟨hmore, hside⟩
  · rw [abs_of_nonneg (by linarith), abs_of_pos (by linarith)]
    linarith
  · rw [abs_of_nonpos (by linarith), abs_of_neg (by linarith)]
    linarith

/-- The word of a ratio before it is cut at infinity. -/
def wordOf (p : Precision) (num den : ℕ) : ℕ :=
  (p.unit num den - p.minExponent).toNat * p.hiddenBit + rounded num den (p.unit num den)

/-- The value of a significand on the grid of a ratio. -/
theorem value_of_unit (p : Precision) (num den : ℕ) {m : ℕ} (hm : m ≤ 2 * p.hiddenBit)
    (hnormal : (p.unit num den - p.minExponent).toNat = 0 ∨ p.hiddenBit ≤ m) :
    p.value ((p.unit num den - p.minExponent).toNat * p.hiddenBit + m) =
      m * 2 ^ p.unit num den := by
  have hunit : p.minExponent + ((p.unit num den - p.minExponent).toNat : ℤ) = p.unit num den := by
    have hleast : p.minExponent ≤ p.unit num den := le_max_right _ _
    omega
  rw [value_add hm hnormal, hunit]

theorem two_dvd_hiddenBit (hbits : 0 < p.fractionBits) : 2 ∣ p.hiddenBit := by
  rw [hiddenBit_eq]
  exact dvd_pow_self 2 hbits.ne'

section

variable (hnum : 0 < num) (hden : 0 < den)

include hnum hden

theorem field_eq_zero_or_le : (p.unit num den - p.minExponent).toNat = 0 ∨
    (p.hiddenBit : ℚ) * 2 ^ p.unit num den ≤ num / den := by
  by_cases hleast : p.minExponent < p.unit num den
  · exact .inr (p.first_le hnum hden hleast)
  · left
    omega

theorem field_eq_zero_or_le_rounded : (p.unit num den - p.minExponent).toNat = 0 ∨
    p.hiddenBit ≤ rounded num den (p.unit num den) := by
  by_cases hleast : p.minExponent < p.unit num den
  · exact .inr (p.le_rounded hnum hden hleast)
  · left
    omega

theorem value_wordOf :
    p.value (p.wordOf num den) = rounded num den (p.unit num den) * 2 ^ p.unit num den :=
  p.value_of_unit num den (p.rounded_le hnum hden) (field_eq_zero_or_le_rounded hnum hden)

/-- A smaller word is a unit below, unless the ratio lies on the other side. -/
theorem value_below {word : ℕ} (hless : word < p.wordOf num den)
    (hfinite : p.wordOf num den ≤ p.infinity) :
    p.value word + 2 ^ p.unit num den ≤ p.value (p.wordOf num den) ∨
      p.value word < p.value (p.wordOf num den) ∧ p.value (p.wordOf num den) ≤ num / den := by
  by_cases hside : p.value (p.wordOf num den) ≤ num / den
  · exact .inr ⟨value_lt_value hless hfinite, hside⟩
  · left
    have hscale : (0 : ℚ) < 2 ^ p.unit num den := by positivity
    have hvalue := p.value_wordOf hnum hden
    have hmost := p.rounded_le hnum hden
    have hfield := p.field_eq_zero_or_le hnum hden
    rw [hvalue, not_le] at hside
    unfold wordOf at hless hfinite
    rw [hvalue]
    generalize rounded num den (p.unit num den) = r at *
    obtain ⟨m, rfl⟩ : ∃ m, r = m + 1 := by
      refine Nat.exists_eq_succ_of_ne_zero fun hzero ↦ ?_
      rw [hzero, Nat.cast_zero, zero_mul] at hside
      exact absurd hside (not_lt.2 (by positivity))
    have hnormal : (p.unit num den - p.minExponent).toNat = 0 ∨ p.hiddenBit ≤ m := by
      refine hfield.imp_right fun hfirst ↦ Nat.lt_succ_iff.1 ?_
      exact_mod_cast lt_of_mul_lt_mul_right (hfirst.trans_lt hside) hscale.le
    have hprevious := p.value_of_unit num den (by omega : m ≤ 2 * p.hiddenBit) hnormal
    have hmono : p.value word ≤ _ :=
      value_le_value (b := (p.unit num den - p.minExponent).toNat * p.hiddenBit + m)
        (by omega) (by omega)
    rw [hprevious] at hmono
    push_cast
    linarith

/-- A larger word is a unit above, unless the ratio lies on the other side. -/
theorem value_above {word : ℕ} (hmore : p.wordOf num den < word) (hfinite : word ≤ p.infinity) :
    p.value (p.wordOf num den) + 2 ^ p.unit num den ≤ p.value word ∨
      p.value (p.wordOf num den) < p.value word ∧ num / den ≤ p.value (p.wordOf num den) := by
  by_cases hside : num / den ≤ p.value (p.wordOf num den)
  · exact .inr ⟨value_lt_value hmore hfinite, hside⟩
  · left
    have hscale : (0 : ℚ) < 2 ^ p.unit num den := by positivity
    have hlast := p.lt_last hnum hden
    have hvalue := p.value_wordOf hnum hden
    have hnormal := p.field_eq_zero_or_le_rounded hnum hden
    rw [hvalue, not_le] at hside
    unfold wordOf at hmore
    rw [hvalue]
    generalize rounded num den (p.unit num den) = r at *
    have hless : r < 2 * p.hiddenBit := by
      exact_mod_cast lt_of_mul_lt_mul_right (hside.trans hlast) hscale.le
    have hnext := p.value_of_unit num den (Nat.succ_le_of_lt hless)
      (hnormal.imp_right Nat.le_succ_of_le)
    have hmono : _ ≤ p.value word :=
      value_le_value (a := (p.unit num den - p.minExponent).toNat * p.hiddenBit + (r + 1))
        (by omega) hfinite
    rw [hnext] at hmono
    push_cast at hmono
    linarith

/-- No other word is nearer than that of a ratio, and if one is as near, the significand is even. -/
theorem nearest_wordOf (hfinite : p.wordOf num den ≤ p.infinity) {word : ℕ}
    (hword : word ≤ p.infinity) (hne : word ≠ p.wordOf num den) :
    |(num : ℚ) / den - p.value (p.wordOf num den)| ≤ |(num : ℚ) / den - p.value word| ∧
      (|(num : ℚ) / den - p.value word| = |(num : ℚ) / den - p.value (p.wordOf num den)| →
        rounded num den (p.unit num den) % 2 = 0) := by
  obtain ⟨hnear, heven⟩ := rounded_within num hden (p.unit num den)
  rw [← p.value_wordOf hnum hden] at hnear heven
  have hcases : (p.value word + 2 ^ p.unit num den ≤ p.value (p.wordOf num den) ∨
      p.value (p.wordOf num den) + 2 ^ p.unit num den ≤ p.value word) ∨
      |(num : ℚ) / den - p.value (p.wordOf num den)| < |(num : ℚ) / den - p.value word| := by
    rcases hne.lt_or_gt with hless | hmore
    · exact (value_below hnum hden hless hfinite).imp .inl fun h ↦ abs_sub_lt_of_side (.inl h)
    · exact (value_above hnum hden hmore hword).imp .inr fun h ↦ abs_sub_lt_of_side (.inr h)
  rcases hcases with hunit | hstrict
  · obtain ⟨hle, htie⟩ := abs_sub_le_of_apart hnear hunit
    exact ⟨hle, fun hsame ↦ heven (htie hsame)⟩
  · exact ⟨hstrict.le, fun hsame ↦ absurd hsame hstrict.ne'⟩

/-- The word of a ratio is the nearest one if it does not lie past infinity. -/
theorem isNearest_wordOf (hbits : 0 < p.fractionBits) (hfinite : p.wordOf num den ≤ p.infinity) :
    p.IsNearest (num / den) (p.wordOf num den) where
  le_infinity := hfinite
  nearest := by
    intro other hother
    rcases eq_or_ne other (p.wordOf num den) with rfl | hne
    · exact le_rfl
    · exact (nearest_wordOf hnum hden hfinite hother hne).1
  even := by
    intro other hother hne hsame
    have heven := (nearest_wordOf hnum hden hfinite hother hne).2 hsame
    have hfield :=
      (two_dvd_hiddenBit hbits).mul_left (p.unit num den - p.minExponent).toNat
    unfold wordOf
    omega

/-- A ratio whose word lies past infinity is no less than the value of infinity. -/
theorem value_infinity_le (hfields : 2 ≤ p.topField) (hlarge : p.infinity < p.wordOf num den) :
    p.value p.infinity ≤ num / den := by
  obtain ⟨t, ht⟩ : ∃ t, p.topField = t + 2 := Nat.exists_eq_add_of_le' hfields
  have hpos := p.hiddenBit_pos
  have hinfinity : p.infinity = (t + 1) * p.hiddenBit + p.hiddenBit := by
    rw [infinity_eq, ht]
    ring
  have hvalue : p.value p.infinity = p.hiddenBit * 2 ^ (p.minExponent + (t + 1 : ℕ)) := by
    rw [hinfinity, value_word (by omega) (.inr le_rfl)]
  have hfield : t < (p.unit num den - p.minExponent).toNat := by
    have hmost := p.rounded_le hnum hden
    rw [infinity_eq, ht, wordOf] at hlarge
    have hless : (t + 2) * p.hiddenBit <
        ((p.unit num den - p.minExponent).toNat + 2) * p.hiddenBit :=
      calc (t + 2) * p.hiddenBit
          < (p.unit num den - p.minExponent).toNat * p.hiddenBit + 2 * p.hiddenBit := by omega
        _ = ((p.unit num den - p.minExponent).toNat + 2) * p.hiddenBit := (Nat.add_mul ..).symm
    have hfields := Nat.lt_of_mul_lt_mul_right hless
    omega
  have hfirst := (field_eq_zero_or_le hnum hden).resolve_left (Nat.ne_zero_of_lt hfield)
  have hexponent : p.minExponent + (t + 1 : ℕ) ≤ p.unit num den := by omega
  rw [hvalue]
  calc (p.hiddenBit : ℚ) * 2 ^ (p.minExponent + (t + 1 : ℕ))
      ≤ p.hiddenBit * 2 ^ p.unit num den :=
        mul_le_mul_of_nonneg_left (zpow_le_zpow_right₀ one_le_two hexponent) (by positivity)
    _ ≤ num / den := hfirst

end

theorem isNearest_zero (p : Precision) : p.IsNearest 0 0 where
  le_infinity := Nat.zero_le _
  nearest := by
    have hzero : p.value 0 = 0 := by simp [value, significand, p.hiddenBit_pos]
    simp [hzero]
  even := fun _ _ _ _ ↦ rfl

/-- Infinity is nearest to what is no less than its value. -/
theorem isNearest_infinity (hbits : 0 < p.fractionBits) {q : ℚ} (h : p.value p.infinity ≤ q) :
    p.IsNearest q p.infinity where
  le_infinity := le_rfl
  nearest := by
    intro other hother
    have hless := value_le_value hother le_rfl
    rw [abs_of_nonneg (by linarith), abs_of_nonneg (by linarith)]
    linarith
  even := by
    intro _ _ _ _
    rw [infinity_eq]
    exact Nat.mod_eq_zero_of_dvd ((two_dvd_hiddenBit hbits).mul_left _)

/-- A ratio is rounded to the nearest word. -/
theorem isNearest_ofRatio (hbits : 0 < p.fractionBits) (hfields : 2 ≤ p.topField) (num : ℕ)
    (hden : 0 < den) : p.IsNearest (num / den) (p.ofRatio num den) := by
  rcases Nat.eq_zero_or_pos num with rfl | hnum
  · rw [p.keepsOrder.zero hden, Nat.cast_zero, zero_div]
    exact p.isNearest_zero
  have hword : p.ofRatio num den = min p.infinity (p.wordOf num den) := p.ofRatio_of_pos hnum den
  rw [hword]
  rcases Nat.lt_or_ge p.infinity (p.wordOf num den) with hlarge | hfinite
  · rw [Nat.min_eq_left hlarge.le]
    exact isNearest_infinity hbits (value_infinity_le hnum hden hfields hlarge)
  · rw [Nat.min_eq_right hfinite]
    exact isNearest_wordOf hnum hden hbits hfinite

end Precision

/-! ## Doubles and singles -/

namespace Double

variable {d : Double}

/-- The double of a ratio has the magnitude nearest to it. -/
theorem isNearest_magnitude_ofRatio (negative : Bool) (num : ℕ) {den : ℕ} (hden : 0 < den) :
    Precision.binary64.IsNearest (num / den) (ofRatio negative num den).magnitude := by
  have hnearest := Precision.isNearest_ofRatio (p := .binary64) (by decide) (by decide) num hden
  rwa [ofRatio, magnitude_ofMagnitude (hnearest.le_infinity.trans_lt infinity_lt_signBit)]

theorem abs_toRat (h : d.isFinite = true) :
    |d.toRat| = Precision.binary64.value d.magnitude := by
  rw [toRat, view_of_isFinite h]
  simp only
  rw [← Precision.ratio_eq_value, abs_div, Nat.abs_cast]
  cases d.isNegative <;> simp [signed]

theorem toSingle_of_isFinite (h : d.isFinite = true) :
    d.toSingle = .ofMagnitude d.isNegative
      (Precision.binary32.ofRatio (Precision.binary64.ratio d.magnitude).1
        (Precision.binary64.ratio d.magnitude).2) := by
  have hfinite : d.magnitude < Precision.binary64.infinity := of_decide_eq_true h
  simp only [toSingle, if_neg hfinite.not_gt, if_neg hfinite.ne]

/-- A finite double becomes the single that has its sign and whose magnitude is nearest to its
own. -/
theorem toSingle_eq_iff (h : d.isFinite = true) {s : Single} :
    d.toSingle = s ↔ s.isNegative = d.isNegative ∧
      Precision.binary32.IsNearest |d.toRat| s.magnitude := by
  have hnearest := Precision.isNearest_ofRatio (p := .binary32) (by decide) (by decide)
    (Precision.binary64.ratio d.magnitude).1 (Precision.binary64.ratio_den_pos d.magnitude)
  rw [Precision.ratio_eq_value, ← abs_toRat h] at hnearest
  have hword := hnearest.le_infinity.trans_lt Single.infinity_lt_signBit
  rw [toSingle_of_isFinite h]
  constructor
  · rintro rfl
    rw [Single.isNegative_ofMagnitude hword, Single.magnitude_ofMagnitude hword]
    exact ⟨rfl, hnearest⟩
  · rintro ⟨hsign, hmagnitude⟩
    rw [hnearest.unique hmagnitude, ← hsign, Single.ofMagnitude_magnitude]

end Double

/-- A finite single has the same number in double precision. -/
theorem Single.abs_toRat_toDouble {s : Single} (h : s.magnitude < Precision.binary32.infinity) :
    s.toDouble.isFinite = true ∧ s.toDouble.isNegative = s.isNegative ∧
      |s.toDouble.toRat| = Precision.binary32.value s.magnitude := by
  obtain ⟨wide, hwide, hdouble, hvalue⟩ := exists_toDouble_eq h
  have hword := hwide.trans Double.infinity_lt_signBit
  have hfinite : s.toDouble.isFinite = true := by
    rw [hdouble, Double.isFinite, Double.magnitude_ofMagnitude hword]
    exact decide_eq_true hwide
  refine ⟨hfinite, by rw [hdouble, Double.isNegative_ofMagnitude hword], ?_⟩
  rw [Double.abs_toRat hfinite, hdouble, Double.magnitude_ofMagnitude hword, hvalue]

end LasFile
