import LasFile.Proofs.Number.Interval

/-!
# The shortest decimal of a number

The search for digits ends at a decimal that is rounded to the number again. It begins on a grid
that is coarser than the number, and a grid without a hit is coarser than the interval around the
number, so that the digits fit sixty-four bits.
-/

namespace LasFile

namespace Decimal

/-- `2 ^ e` as a whole number, on a common scale with `10 ^ t`. -/
def twoSide (e t : ℤ) : ℕ := Nat.pow 10 (-t).toNat <<< e.toNat

/-- `10 ^ t` as a whole number, on a common scale with `2 ^ e`. -/
def tenSide (e t : ℤ) : ℕ := Nat.pow 10 t.toNat <<< (-e).toNat

/-! ## Comparisons -/

section

variable {e t : ℤ}

theorem exists_scale (e t : ℤ) : ∃ scale : ℚ, 0 < scale ∧
    (twoSide e t : ℚ) = 2 ^ e * scale ∧ (tenSide e t : ℚ) = 10 ^ t * scale := by
  refine ⟨10 ^ (-t).toNat * 2 ^ (-e).toNat, by positivity, ?_, ?_⟩
  · rw [twoSide, Nat.shiftLeft_eq, Nat.pow_eq]
    push_cast
    rw [Precision.zpow_toNat two_ne_zero]
    ring
  · rw [tenSide, Nat.shiftLeft_eq, Nat.pow_eq]
    push_cast
    rw [Precision.zpow_toNat (b := 10) (by norm_num) t]
    ring

theorem two_le_ten_iff (a b : ℕ) :
    a * twoSide e t ≤ b * tenSide e t ↔ (a : ℚ) * 2 ^ e ≤ b * 10 ^ t := by
  obtain ⟨scale, hscale, htwo, hten⟩ := exists_scale e t
  rw [← Nat.cast_le (α := ℚ), Nat.cast_mul, Nat.cast_mul, htwo, hten, ← mul_assoc, ← mul_assoc,
    mul_le_mul_iff_left₀ hscale]

theorem two_lt_ten_iff (a b : ℕ) :
    a * twoSide e t < b * tenSide e t ↔ (a : ℚ) * 2 ^ e < b * 10 ^ t := by
  obtain ⟨scale, hscale, htwo, hten⟩ := exists_scale e t
  rw [← Nat.cast_lt (α := ℚ), Nat.cast_mul, Nat.cast_mul, htwo, hten, ← mul_assoc, ← mul_assoc,
    mul_lt_mul_iff_left₀ hscale]

theorem ten_le_two_iff (a b : ℕ) :
    b * tenSide e t ≤ a * twoSide e t ↔ (b : ℚ) * 10 ^ t ≤ a * 2 ^ e := by
  rw [← not_lt, two_lt_ten_iff, not_lt]

theorem ten_lt_two_iff (a b : ℕ) :
    b * tenSide e t < a * twoSide e t ↔ (b : ℚ) * 10 ^ t < a * 2 ^ e := by
  rw [← not_le, two_le_ten_iff, not_le]

theorem twoSide_pos (e t : ℤ) : 0 < twoSide e t := by
  rw [twoSide, Nat.shiftLeft_eq, Nat.pow_eq]
  positivity

theorem tenSide_pos (e t : ℤ) : 0 < tenSide e t := by
  rw [tenSide, Nat.shiftLeft_eq, Nat.pow_eq]
  positivity

/-- The next grid is ten times as fine. -/
theorem twoSide_sub_one {n : ℕ} (h : n * twoSide e t ≤ tenSide e t) :
    n * twoSide e (t - 1) ≤ 10 * tenSide e (t - 1) := by
  have hstep : (10 : ℚ) ^ t = 10 * 10 ^ (t - 1) := by
    rw [← zpow_one_add₀ (by norm_num)]
    congr 1
    ring
  have hcoarse : (n : ℚ) * 2 ^ e ≤ (1 : ℕ) * 10 ^ t := by
    rw [← two_le_ten_iff, Nat.one_mul]
    exact h
  rw [two_le_ten_iff]
  calc (n : ℚ) * 2 ^ e ≤ (1 : ℕ) * 10 ^ t := hcoarse
    _ = (10 : ℕ) * 10 ^ (t - 1) := by
      rw [hstep]
      push_cast
      ring

end

variable {i : Interval} {tie : Tie} {t : ℤ}

/-! ## One grid -/

/-- A multiple of `10 ^ t` that lies above the lower end. -/
def FitsLow (i : Interval) (t : ℤ) (n : ℕ) : Prop :=
  i.low * twoSide i.exponent t < n * tenSide i.exponent t ∨
    i.closed = true ∧ i.low * twoSide i.exponent t = n * tenSide i.exponent t

/-- A multiple of `10 ^ t` that lies below the upper end. -/
def FitsHigh (i : Interval) (t : ℤ) (n : ℕ) : Prop :=
  n * tenSide i.exponent t < i.high * twoSide i.exponent t ∨
    i.closed = true ∧ n * tenSide i.exponent t = i.high * twoSide i.exponent t

instance (i : Interval) (t : ℤ) (n : ℕ) : Decidable (FitsLow i t n) :=
  inferInstanceAs (Decidable (_ ∨ _))

instance (i : Interval) (t : ℤ) (n : ℕ) : Decidable (FitsHigh i t n) :=
  inferInstanceAs (Decidable (_ ∨ _))

/-- A multiple of `10 ^ t` that the search may take. -/
structure Fits (i : Interval) (t : ℤ) (n : ℕ) : Prop where
  low : FitsLow i t n
  high : FitsHigh i t n

namespace Fits

variable {n : ℕ}

theorem pos (hi : i.Proper) (h : Fits i t n) : 0 < n := by
  rw [Nat.pos_iff_ne_zero]
  rintro rfl
  have hlow := Nat.mul_pos hi.low_pos (twoSide_pos i.exponent t)
  have hfits := h.low
  unfold FitsLow at hfits
  omega

theorem holds (h : Fits i t n) : i.Holds (n * 10 ^ t) where
  low := by
    rw [← two_le_ten_iff]
    rcases h.low with hless | ⟨-, hsame⟩
    · exact hless.le
    · exact hsame.le
  high := by
    rw [← ten_le_two_iff]
    rcases h.high with hless | ⟨-, hsame⟩
    · exact hless.le
    · exact hsame.le
  interior hopen := by
    rw [← two_lt_ten_iff, ← ten_lt_two_iff]
    exact ⟨h.low.resolve_right (by simp [hopen]), h.high.resolve_right (by simp [hopen])⟩

end Fits

/-- The last multiple of `10 ^ t` that is not above the middle. -/
def below (i : Interval) (t : ℤ) : ℕ := i.middle * twoSide i.exponent t / tenSide i.exponent t

theorem below_mul_le (i : Interval) (t : ℤ) :
    below i t * tenSide i.exponent t ≤ i.middle * twoSide i.exponent t := Nat.div_mul_le_self _ _

theorem lt_below_add_one_mul (i : Interval) (t : ℤ) :
    i.middle * twoSide i.exponent t < (below i t + 1) * tenSide i.exponent t := by
  rw [Nat.mul_comm (_ + 1)]
  exact Nat.lt_mul_div_succ _ (tenSide_pos i.exponent t)

/-- The multiples next to the middle, and whether they lie in the interval. -/
theorem onGrid?_eq (tie : Tie) (i : Interval) (t : ℤ) : onGrid? tie i t =
    match decide (FitsLow i t (below i t)), decide (FitsHigh i t (below i t + 1)) with
    | true, true => some (tie.quotient (i.middle * twoSide i.exponent t) (tenSide i.exponent t))
    | true, false => some (below i t)
    | false, true => some (below i t + 1)
    | false, false => none := by
  have hlow : decide (FitsLow i t (below i t)) =
      (decide (i.low * twoSide i.exponent t < below i t * tenSide i.exponent t) ||
        i.closed && decide (i.low * twoSide i.exponent t = below i t * tenSide i.exponent t)) := by
    rw [Bool.eq_iff_iff, decide_eq_true_eq]
    simp [FitsLow]
  have hhigh : decide (FitsHigh i t (below i t + 1)) =
      (decide ((below i t + 1) * tenSide i.exponent t < i.high * twoSide i.exponent t) ||
        i.closed &&
          decide ((below i t + 1) * tenSide i.exponent t = i.high * twoSide i.exponent t)) := by
    rw [Bool.eq_iff_iff, decide_eq_true_eq]
    simp [FitsHigh]
  rw [hlow, hhigh]
  rfl

/-- The multiple up to the middle lies in the interval if it lies above the lower end. -/
theorem fits_below (hi : i.Proper) (h : FitsLow i t (below i t)) : Fits i t (below i t) := by
  refine ⟨h, .inl ((below_mul_le i t).trans_lt ?_)⟩
  exact Nat.mul_lt_mul_of_pos_right (by rw [hi.high_eq]; omega) (twoSide_pos i.exponent t)

/-- The multiple past the middle lies in the interval if it lies below the upper end. -/
theorem fits_below_add_one (hi : i.Proper) (h : FitsHigh i t (below i t + 1)) :
    Fits i t (below i t + 1) := by
  refine ⟨.inl (Nat.lt_trans ?_ (lt_below_add_one_mul i t)), h⟩
  exact Nat.mul_lt_mul_of_pos_right hi.low_lt (twoSide_pos i.exponent t)

/-- A hit lies in the interval and is one of the multiples next to the middle. -/
theorem fits_of_onGrid? (hi : i.Proper) {n : ℕ} (h : onGrid? tie i t = some n) :
    Fits i t n ∧ n ≤ below i t + 1 := by
  rw [onGrid?_eq] at h
  split at h
  next hdown hup =>
    cases h
    rcases tie.quotient_eq (i.middle * twoSide i.exponent t) (tenSide i.exponent t)
      with hround | hround <;> rw [hround]
    · exact ⟨fits_below hi (of_decide_eq_true hdown), Nat.le_succ _⟩
    · exact ⟨fits_below_add_one hi (of_decide_eq_true hup), Nat.le_refl _⟩
  next hdown _ =>
    cases h
    exact ⟨fits_below hi (of_decide_eq_true hdown), Nat.le_succ _⟩
  next _ hup =>
    cases h
    exact ⟨fits_below_add_one hi (of_decide_eq_true hup), Nat.le_refl _⟩
  next => cases h

/-- A grid without a hit is coarser than the interval. -/
theorem twoSide_le_of_onGrid? (hi : i.Proper) (h : onGrid? tie i t = none) :
    3 * twoSide i.exponent t ≤ tenSide i.exponent t := by
  rw [onGrid?_eq] at h
  split at h
  next => cases h
  next => cases h
  next => cases h
  next hdown hup =>
    have hlow := of_decide_eq_false hdown
    have hhigh := of_decide_eq_false hup
    have hwidth : (i.low + 3) * twoSide i.exponent t ≤ i.high * twoSide i.exponent t :=
      Nat.mul_le_mul_right _ (by have := hi.low_lt; rw [hi.high_eq]; omega)
    rw [Nat.add_mul] at hwidth
    rw [FitsLow] at hlow
    rw [FitsHigh, Nat.succ_mul] at hhigh
    omega

/-! ## All grids -/

/-- The digits found are positive. -/
theorem digits_search_pos (hi : i.Proper) (fuel : ℕ) (t : ℤ) :
    0 < (search tie i fuel t).digits := by
  induction fuel generalizing t with
  | zero => exact hi.low_pos.trans hi.low_lt
  | succ fuel ih =>
    rw [search]
    split
    next digits hhit => exact (fits_of_onGrid? hi hhit).1.pos hi
    next => exact ih (t - 1)

/-- A grid on which the middle lies below some multiple gives no more than this multiple and one. -/
theorem digits_search_le (hi : i.Proper) {bound : ℕ} (hmiddle : 10 * i.middle ≤ 3 * bound)
    (fuel : ℕ) {t : ℤ} (ht : i.middle * twoSide i.exponent t ≤ bound * tenSide i.exponent t) :
    (search tie i fuel t).digits ≤ bound + 1 := by
  induction fuel generalizing t with
  | zero => show i.middle ≤ bound + 1; omega
  | succ fuel ih =>
    rw [search]
    split
    next digits hhit =>
      have hbelow : below i t ≤ bound :=
        Nat.div_le_of_le_mul (ht.trans_eq (Nat.mul_comm _ _))
      exact (fits_of_onGrid? hi hhit).2.trans (Nat.succ_le_succ hbelow)
    next hmiss =>
      -- A grid that was missed is at least three times as coarse as the unit, so that the next one
      -- is coarser than three tenths of it. This is the room that `hmiddle` leaves.
      apply ih
      have hfine := twoSide_sub_one (twoSide_le_of_onGrid? hi hmiss)
      apply Nat.le_of_mul_le_mul_left _ (Nat.succ_pos 2)
      calc 3 * (i.middle * twoSide i.exponent (t - 1))
          = i.middle * (3 * twoSide i.exponent (t - 1)) := by ring
        _ ≤ i.middle * (10 * tenSide i.exponent (t - 1)) := Nat.mul_le_mul_left _ hfine
        _ = 10 * i.middle * tenSide i.exponent (t - 1) := by ring
        _ ≤ 3 * bound * tenSide i.exponent (t - 1) := Nat.mul_le_mul_right _ hmiddle
        _ = 3 * (bound * tenSide i.exponent (t - 1)) := by ring

/-- A search that comes to a grid as fine as the interval's unit ends with a hit. -/
theorem holds_search (hi : i.Proper) {fuel : ℕ} {t : ℤ}
    (hfine : tenSide i.exponent (t - fuel) ≤ twoSide i.exponent (t - fuel)) :
    i.Holds (search tie i (fuel + 1) t).value := by
  induction fuel generalizing t with
  | zero =>
    rw [Int.natCast_zero, sub_zero] at hfine
    rw [search]
    split
    next digits hhit => exact (fits_of_onGrid? hi hhit).1.holds
    next hmiss =>
      have hcoarse := twoSide_le_of_onGrid? hi hmiss
      have hpos := twoSide_pos i.exponent t
      omega
  | succ fuel ih =>
    rw [search]
    split
    next digits hhit => exact (fits_of_onGrid? hi hhit).1.holds
    next =>
      apply ih
      have hplace : t - 1 - fuel = t - (fuel + 1 : ℕ) := by
        push_cast
        ring
      rwa [hplace]

/-! ## Words -/

variable {p : Precision} {word : ℕ}

/-- The decimal of a positive word has some digits. -/
theorem digits_shortest_pos (tie : Tie) (hword : 0 < word) : 0 < (shortest tie p word).digits :=
  digits_search_pos (proper_interval hword) _ _

/-- The first grid that is tried for numbers from `2 ^ log2` on. -/
def gridOf (log2 : ℤ) : ℤ := log2 * 30103 / 100000 + 2

/-- The first grid against the next power of two, for each `log2` of a double. -/
theorem two_le_gridOf : ∀ k ∈ List.range 2098,
    twoSide (k - 1073) (gridOf (k - 1074)) ≤ tenSide (k - 1073) (gridOf (k - 1074)) := by
  decide +kernel

/-- The last grid against a quarter of the last place, for each exponent of a double. -/
theorem gridOf_le_two : ∀ k ∈ List.range 2046,
    tenSide (k - 1076) (gridOf (k - 1022) - 23) ≤ twoSide (k - 1076) (gridOf (k - 1022) - 23) := by
  decide +kernel

/-- The first grid is coarser than a double. -/
theorem two_zpow_le_gridOf {log2 : ℤ} (hleast : -1074 ≤ log2) (hmost : log2 ≤ 1023) :
    (2 : ℚ) ^ (log2 + 1) ≤ 10 ^ gridOf log2 := by
  have hgrid := two_le_gridOf (log2 + 1074).toNat (List.mem_range.2 (by omega))
  have hplace : (((log2 + 1074).toNat : ℕ) : ℤ) = log2 + 1074 := by omega
  have hnext : log2 + 1074 - 1073 = log2 + 1 := by ring
  have hsame : log2 + 1074 - 1074 = log2 := by ring
  rw [hplace, hnext, hsame] at hgrid
  have hsides := (two_le_ten_iff 1 1).1 (by simpa using hgrid)
  simpa using hsides

/-- The last grid is as fine as the unit of the interval around a double. -/
theorem gridOf_le_two_zpow {e : ℤ} (hleast : -1074 ≤ e) (hmost : e ≤ 971) :
    (10 : ℚ) ^ (gridOf (e + 52) - 23) ≤ 2 ^ (e - 2) := by
  have hgrid := gridOf_le_two (e + 1074).toNat (List.mem_range.2 (by omega))
  have hplace : (((e + 1074).toNat : ℕ) : ℤ) = e + 1074 := by omega
  have hunit : e + 1074 - 1076 = e - 2 := by ring
  have htop : e + 1074 - 1022 = e + 52 := by ring
  rw [hplace, hunit, htop] at hgrid
  have hsides := (ten_le_two_iff 1 1).1 (by simpa using hgrid)
  simpa using hsides

theorem gridOf_mono {a b : ℤ} (h : a ≤ b) : gridOf a ≤ gridOf b := by
  unfold gridOf
  omega

/-- The exponents of finite doubles. -/
theorem exponent_bounds (hword : word < Precision.binary64.infinity) :
    -1074 ≤ Precision.binary64.exponent word ∧ Precision.binary64.exponent word ≤ 971 := by
  have hminimum : Precision.binary64.minExponent = -1074 := by decide
  have hfield : word / Precision.binary64.hiddenBit < 2047 := Nat.div_lt_of_lt_mul hword
  unfold Precision.exponent
  omega

theorem significand_pos (hpos : 0 < word) : 0 < p.significand word := by
  have hhidden := p.hiddenBit_pos
  unfold Precision.significand
  split <;> omega

/-- The significand of a double has at most fifty-three bits. -/
theorem log2_significand_le (hpos : 0 < word) :
    (Precision.binary64.significand word).log2 ≤ 52 := by
  have hmost := (Precision.binary64.significand_bounds word).1
  have hbits : 2 * Precision.binary64.hiddenBit = 2 ^ 53 := by decide
  rw [hbits, ← Nat.log2_lt (significand_pos hpos).ne'] at hmost
  omega

/-- The first grid that is tried for a double. -/
def firstGrid (word : ℕ) : ℤ :=
  gridOf (Precision.binary64.exponent word + (Precision.binary64.significand word).log2)

theorem shortest_eq (tie : Tie) (word : ℕ) : shortest tie .binary64 word =
    search tie (interval .binary64 word) (23 + 1) (firstGrid word) := rfl

/-- A double lies below the first grid that is tried for it. -/
theorem middle_le_firstGrid (hpos : 0 < word) (hword : word < Precision.binary64.infinity) :
    (interval .binary64 word).middle * (2 : ℚ) ^ (interval .binary64 word).exponent ≤
      10 ^ firstGrid word := by
  obtain ⟨hleast, hmost⟩ := exponent_bounds hword
  have hlog2 := log2_significand_le hpos
  have hsignificand : (Precision.binary64.significand word : ℚ) ≤
      2 ^ ((Precision.binary64.significand word).log2 + 1) := by
    exact_mod_cast Nat.lt_log2_self.le
  refine le_trans ?_ (two_zpow_le_gridOf (by omega) (by omega))
  simp only [interval]
  generalize Precision.binary64.significand word = m at *
  generalize Precision.binary64.exponent word = e at *
  calc ((4 * m : ℕ) : ℚ) * 2 ^ (e - 2) = m * 2 ^ e := by
        rw [zpow_sub₀ two_ne_zero]
        push_cast
        ring
    _ ≤ 2 ^ (m.log2 + 1) * 2 ^ e := by gcongr
    _ = 2 ^ (e + m.log2 + 1) := by
        rw [← zpow_natCast, ← zpow_add₀ two_ne_zero]
        congr 1
        push_cast
        ring

/-- The last grid that is tried is as fine as the unit of the interval. -/
theorem firstGrid_sub_le (hpos : 0 < word) (hword : word < Precision.binary64.infinity) :
    (10 : ℚ) ^ (firstGrid word - 23) ≤ 2 ^ (interval .binary64 word).exponent := by
  obtain ⟨hleast, hmost⟩ := exponent_bounds hword
  have hlog2 := log2_significand_le hpos
  have hgrids : firstGrid word ≤ gridOf (Precision.binary64.exponent word + 52) :=
    gridOf_mono (by omega)
  calc (10 : ℚ) ^ (firstGrid word - 23)
      ≤ 10 ^ (gridOf (Precision.binary64.exponent word + 52) - 23) :=
        zpow_le_zpow_right₀ (by norm_num) (by omega)
    _ ≤ 2 ^ (interval .binary64 word).exponent := gridOf_le_two_zpow hleast hmost

/-- The digits of a double fit sixty-four bits. -/
theorem digits_shortest_lt (tie : Tie) (hpos : 0 < word)
    (hword : word < Precision.binary64.infinity) :
    (shortest tie .binary64 word).digits < UInt64.size := by
  have hsignificand := (Precision.binary64.significand_bounds word).1
  have hbits : Precision.binary64.hiddenBit = 4503599627370496 := by decide
  have hmiddle : 10 * (interval .binary64 word).middle ≤ 3 * 2 ^ 57 := by
    simp only [interval]
    omega
  have hstart : (interval .binary64 word).middle *
      twoSide (interval .binary64 word).exponent (firstGrid word) ≤
        2 ^ 57 * tenSide (interval .binary64 word).exponent (firstGrid word) := by
    rw [two_le_ten_iff]
    apply (middle_le_firstGrid hpos hword).trans
    exact le_mul_of_one_le_left (by positivity) (by norm_num)
  have hsize : 2 ^ 57 + 1 < UInt64.size := by decide
  rw [shortest_eq]
  exact (digits_search_le (proper_interval hpos) hmiddle _ hstart).trans_lt hsize

/-- The decimal of a double lies in the interval around it. -/
theorem holds_shortest (tie : Tie) (hpos : 0 < word) (hword : word < Precision.binary64.infinity) :
    (interval .binary64 word).Holds (shortest tie .binary64 word).value := by
  rw [shortest_eq]
  apply holds_search (proper_interval hpos)
  have hsides := (ten_le_two_iff 1 1).2 (by simpa using firstGrid_sub_le hpos hword)
  simpa using hsides

end Decimal

end LasFile
