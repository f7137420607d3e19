import LasFile.Proofs.Json.Values
import LasFile.Proofs.Number.Grid
import LasFile.Proofs.Number.Shortest

/-!
# Numbers in settings

A finite number is written with its shortest digits. What is read again is the double of these
digits times or over a power of ten, which is rounded a second time. Where both the digits and the
power are doubles themselves, the only rounding left is the one that the digits were chosen for,
and the number comes back.
-/

namespace LasFile

open Json

namespace Decimal

/-- A decimal as it is laid out in settings. -/
def spelling (x : Decimal) : Spelling :=
  let exponent : ℤ := (Nat.toDigits 10 x.digits).length + x.exponent - 1
  if -5 ≤ exponent ∧ exponent ≤ 15 then .positional x.digits x.exponent
  else .scientific x.digits exponent

/-- The digits and the power of ten that are read from a decimal. -/
def parts (x : Decimal) : ℕ × ℤ :=
  if (Nat.toDigits 10 x.digits).length + x.exponent ≤ 16 then
    Spelling.placed x.digits x.exponent
  else (x.digits, x.exponent)

variable {x : Decimal}

theorem parts_spelling (x : Decimal) : (x.spelling.significand, x.spelling.power) = x.parts := by
  have hpos : 0 < (Nat.toDigits 10 x.digits).length := Nat.length_toDigits_pos
  unfold spelling parts
  simp only
  split
  next hplain => rw [if_pos (by omega), Spelling.parts_positional]
  next hplain =>
    have hpower : (Nat.toDigits 10 x.digits).length + x.exponent - 1 -
        ((Nat.toDigits 10 x.digits).length - 1) = x.exponent := by omega
    rw [Spelling.parts_scientific, hpower]
    split
    next =>
      rw [Spelling.placed, if_neg (by omega)]
    next => rfl

theorem valid_spelling (hpos : 0 < x.digits) : x.spelling.Valid := by
  unfold spelling
  simp only
  split
  · exact Spelling.valid_positional hpos _
  · exact Spelling.valid_scientific hpos _

/-- The layout of settings. -/
theorem toList_renderDecimal (x : Decimal) :
    (Settings.numberStyle.renderDecimal x).toList = x.spelling.text := by
  have hplain : Settings.numberStyle.plain = some (-5, 15) := rfl
  simp only [DecimalStyle.renderDecimal, hplain, Spelling.length_toString, spelling,
    Bool.and_eq_true, decide_eq_true_eq]
  split
  · exact Spelling.toList_positional _ _
  · exact Spelling.toList_scientific _ _

/-- The digits that are read fit sixty-four bits if those that are written do. -/
theorem parts_lt (h : x.digits < UInt64.size) : x.parts.1 < UInt64.size := by
  unfold parts Spelling.placed
  split
  next hshort =>
    split
    next hwhole =>
      have hpos : 0 < (Nat.toDigits 10 x.digits).length := Nat.length_toDigits_pos
      have hdigits := (Nat.length_toDigits_le_iff (by decide) hpos).1 (Nat.le_refl _)
      calc x.digits * Nat.pow 10 (x.exponent.toNat + 1)
          ≤ 10 ^ (Nat.toDigits 10 x.digits).length * 10 ^ (x.exponent.toNat + 1) :=
            Nat.mul_le_mul_right _ hdigits.le
        _ = 10 ^ ((Nat.toDigits 10 x.digits).length + (x.exponent.toNat + 1)) :=
            (Nat.pow_add _ _ _).symm
        _ ≤ 10 ^ 17 := Nat.pow_le_pow_right (by decide) (by omega)
        _ < UInt64.size := by decide
    next => exact h
  next => exact h

/-- What is read stands for the decimal. -/
theorem value_parts (x : Decimal) : (x.parts.1 : ℚ) * 10 ^ x.parts.2 = x.value := by
  unfold parts Spelling.placed value
  split
  next =>
    split
    next hwhole =>
      have hplace : (x.exponent.toNat : ℤ) = x.exponent := Int.toNat_of_nonneg hwhole
      rw [Nat.pow_eq]
      push_cast
      rw [pow_succ, zpow_neg_one, ← zpow_natCast, hplace]
      field_simp
    next => rfl
  next => rfl

end Decimal

namespace Double

/-- The decimal that a number is written with, apart from its sign. -/
def decimal (d : Double) : Decimal :=
  if d.magnitude = 0 then ⟨0, 0⟩ else .shortest .even .binary64 d.magnitude

/-- The number that is read where a number was written. -/
def reread (d : Double) : Option Double :=
  (Numeral.scaled 4 (.ofInt d.decimal.parts.1) d.decimal.parts.2).map fun e ↦
    if d.isNegative then -e else e

/-- A number whose digits have at most fifty-three bits and whose power of ten is one of the first
twenty-two. Both are doubles themselves. -/
def Short (d : Double) : Prop :=
  d.magnitude = 0 ∨
    d.decimal.parts.1 < 2 * Precision.binary64.hiddenBit ∧ d.decimal.parts.2.natAbs ≤ 22

instance (d : Double) : Decidable d.Short := inferInstanceAs (Decidable (_ ∨ _))

variable {d : Double}

/-! ## Texts -/

theorem decimal_of_ne_zero (h : d.magnitude ≠ 0) :
    d.decimal = .shortest .even .binary64 d.magnitude := if_neg h

theorem digits_decimal_lt (h : d.isFinite = true) : d.decimal.digits < UInt64.size := by
  by_cases hzero : d.magnitude = 0
  · rw [decimal, if_pos hzero]
    decide
  · rw [decimal_of_ne_zero hzero]
    exact Decimal.digits_shortest_lt .even (Nat.pos_of_ne_zero hzero) (of_decide_eq_true h)

theorem valid_spelling_decimal (d : Double) : d.decimal.spelling.Valid := by
  by_cases hzero : d.magnitude = 0
  · rw [decimal, if_pos hzero]
    exact Spelling.valid_positional_zero
  · rw [decimal_of_ne_zero hzero]
    exact Decimal.valid_spelling (Decimal.digits_shortest_pos .even (Nat.pos_of_ne_zero hzero))

/-- The digits of a number are laid out behind its sign. -/
theorem toList_renderDouble (h : d.isFinite = true) : (Settings.renderDouble d).toList =
    (if d.isNegative then ['-'] else []) ++ d.decimal.spelling.text := by
  have hsign : (if d.isNegative then "-" else "").toList =
      if d.isNegative then ['-'] else [] := by
    split <;> rfl
  rw [Settings.renderDouble, if_pos h, DecimalStyle.render,
    if_neg (by simp [isNaN_of_isFinite h]), String.toList_append, hsign]
  congr 1
  rw [h, Bool.not_true, if_neg Bool.false_ne_true, decimal]
  split
  next => exact Spelling.toList_positional 0 0
  next => exact Decimal.toList_renderDecimal _

/-- A finite number is written as a numeral. -/
theorem spelled_renderDouble (h : d.isFinite = true) : ∃ n : Numeral,
    Value.Spelled (Settings.renderDouble d).toList (.number n) ∧ n.toDouble? = d.reread := by
  have hvalid := d.valid_spelling_decimal
  have hfits : d.decimal.spelling.significand < UInt64.size := by
    have hparts : d.decimal.spelling.significand = d.decimal.parts.1 :=
      congrArg Prod.fst d.decimal.parts_spelling
    rw [hparts]
    exact Decimal.parts_lt (digits_decimal_lt h)
  refine ⟨d.decimal.spelling.numeral d.isNegative, ?_, ?_⟩
  · rw [toList_renderDouble h]
    cases d.isNegative with
    | true => exact Value.spelled_neg_of_valid hvalid
    | false => exact Value.spelled_of_valid hvalid
  · have hparts := Spelling.parts_numeral hfits d.isNegative
    rw [Decimal.parts_spelling] at hparts
    rw [Numeral.toDouble?, hparts]
    rfl

/-! ## Short numbers -/

theorem isFinite_of_rank_eq {word : ℕ} (hrank : d.rank = word)
    (hword : word < Precision.binary64.infinity) : d.isFinite = true := by
  have hmagnitude : d.magnitude = word := by
    rw [magnitude_eq_natAbs_rank, hrank, Int.natAbs_natCast]
  rw [isFinite, hmagnitude]
  exact decide_eq_true hword

/-- Only one number has the place of a positive magnitude. -/
theorem eq_ofMagnitude_of_rank_eq {word : ℕ} (hpos : 0 < word) (hrank : d.rank = word) :
    d = ofMagnitude false word := by
  have hparts : d.isNegative = false ∧ d.magnitude = word := by
    unfold rank at hrank
    split at hrank
    next => omega
    next hsign => exact ⟨by simpa using hsign, by omega⟩
  rw [← ofMagnitude_magnitude d, hparts.1, hparts.2]

/-- The powers of ten that are doubles themselves. -/
theorem toRat_powerOfTen {e : ℕ} (he : e ≤ 22) : (Numeral.powerOfTen e).isFinite = true ∧
    (Numeral.powerOfTen e).toRat = 10 ^ e := by
  have hten : (10 : ℕ) ^ e = 5 ^ e * 2 ^ e := by rw [← Nat.mul_pow]
  have hfive : 5 ^ e < 2 * Precision.binary64.hiddenBit := by
    calc 5 ^ e ≤ 5 ^ 22 := Nat.pow_le_pow_right (by decide) he
      _ < 2 * Precision.binary64.hiddenBit := by decide
  have h := toRat_ofInt_mul (n := (10 ^ e : ℕ)) hten hfive (by omega)
  push_cast at h
  exact h

/-- One rounding is made of digits and a power of ten that are doubles themselves. -/
theorem scaled_eq {n word : ℕ} {e : ℤ} (hn : n < 2 * Precision.binary64.hiddenBit)
    (he : e.natAbs ≤ 22) (hpos : 0 < word) (hword : word < Precision.binary64.infinity)
    (hrank : rankOf (n * 10 ^ e) = word) :
    Numeral.scaled 4 (.ofInt n) e = some (ofMagnitude false word) := by
  obtain ⟨hdigits, hnumber⟩ := toRat_ofInt (n := (n : ℤ)) hn
  obtain ⟨hpower, hten⟩ := toRat_powerOfTen he
  rw [Int.cast_natCast] at hnumber
  have hsmall : e.natAbs ≤ Numeral.stepExponent := he.trans (by decide)
  rw [Numeral.scaled, if_pos hsmall]
  split
  next hup =>
    have hproduct := (rounds_mul hdigits hpower).rank
    have habs : (e.natAbs : ℤ) = e := Int.natAbs_of_nonneg hup
    rw [hnumber, hten, ← zpow_natCast, habs, hrank] at hproduct
    simp only [isFinite_of_rank_eq hproduct hword, if_true]
    rw [eq_ofMagnitude_of_rank_eq hpos hproduct]
  next hdown =>
    have hquotient := (rounds_div hdigits hpower (by rw [hten]; positivity)).rank
    have habs : (e.natAbs : ℤ) = -e := by omega
    rw [hnumber, hten, ← zpow_natCast, habs, zpow_neg, div_inv_eq_mul, hrank] at hquotient
    rw [eq_ofMagnitude_of_rank_eq hpos hquotient]

/-- The digits of a number, with their power of ten, are rounded to its magnitude. -/
theorem rankOf_parts_decimal (h : d.isFinite = true) (hpos : 0 < d.magnitude) :
    rankOf (d.decimal.parts.1 * 10 ^ d.decimal.parts.2) = d.magnitude := by
  have hword : d.magnitude < Precision.binary64.infinity := of_decide_eq_true h
  have hholds := Decimal.holds_shortest .even hpos hword
  rw [← decimal_of_ne_zero hpos.ne'] at hholds
  have hvalue : 0 ≤ d.decimal.value := by
    unfold Decimal.value
    positivity
  rw [← abs_of_nonneg hvalue, ← natAbs_num_div_den] at hholds
  rw [Decimal.value_parts, rankOf, onRat, if_neg hvalue.not_gt,
    Decimal.ofRatio_of_holds (Rat.den_pos _) hpos hword hholds]

/-- A short number is read as it was written. -/
theorem reread_of_short (h : d.isFinite = true) (hshort : d.Short) : d.reread = some d := by
  rcases Nat.eq_zero_or_pos d.magnitude with hzero | hpos
  · have hscaled : Numeral.scaled 4 (.ofInt (Decimal.parts ⟨0, 0⟩).1) (Decimal.parts ⟨0, 0⟩).2 =
        some zero := by decide +kernel
    have hnone : d = ofMagnitude d.isNegative 0 := by rw [← hzero, ofMagnitude_magnitude]
    rw [reread, decimal, if_pos hzero, hscaled, Option.map_some, hnone]
    cases d.isNegative <;> decide
  · obtain ⟨hdigits, hpower⟩ := hshort.resolve_left hpos.ne'
    have hword : d.magnitude < Precision.binary64.infinity := of_decide_eq_true h
    have hrank := rankOf_parts_decimal h hpos
    have hsigned := ofMagnitude_magnitude d
    rw [reread, scaled_eq hdigits hpower hpos hword hrank, Option.map_some]
    cases hsign : d.isNegative with
    | true =>
      rw [hsign, ← neg_ofMagnitude (hword.trans infinity_lt_signBit)] at hsigned
      exact congrArg some hsigned
    | false =>
      rw [hsign] at hsigned
      exact congrArg some hsigned

/-! ## Every number is read -/

/-- Nothing is too large for a division. -/
theorem isSome_scaled_of_neg (steps : ℕ) (d : Double) {e : ℤ} (he : e < 0) :
    (Numeral.scaled steps d e).isSome = true := by
  induction steps generalizing d e with
  | zero => rfl
  | succ steps ih =>
    have hdown : ¬0 ≤ e := Int.not_le.2 he
    rw [Numeral.scaled, if_neg hdown, if_neg hdown]
    split
    next => rfl
    next hfar =>
      have hnext : e + Numeral.stepExponent < 0 := by omega
      split
      next => rfl
      next => exact ih _ hnext

theorem isSome_scaled_of_isFinite {n e : ℕ} (he : e ≤ Numeral.stepExponent)
    (h : (ofInt n * Numeral.powerOfTen e).isFinite = true) :
    (Numeral.scaled 4 (.ofInt n) e).isSome = true := by
  have hup : (0 : ℤ) ≤ e := Int.natCast_nonneg e
  rw [Numeral.scaled, Int.natAbs_natCast, if_pos he, if_pos hup]
  simp only [h, if_true]
  rfl

/-- The fourth largest double. Two roundings do not lead from here to an infinity. -/
def fourthLargest : ℕ := (2 * Precision.binary64.hiddenBit - 4) * Nat.pow 2 971

theorem rankOf_fourthLargest : rankOf fourthLargest = Precision.binary64.infinity - 4 := by
  rw [← Int.cast_natCast, ← (rounds_ofInt fourthLargest).rank]
  decide +kernel

/-- The largest digits for each of the large powers of ten. -/
theorem isFinite_fourthLargest : ∀ k ∈ List.range 20,
    (ofInt (fourthLargest / Nat.pow 10 (k + 289) : ℕ) * Numeral.powerOfTen (k + 289)).isFinite =
      true := by
  decide +kernel

/-- The fourth largest number and the three that are larger. -/
theorem isSome_scaled_largest : ∀ k ∈ List.range 4,
    let x := Decimal.shortest .even .binary64 (Precision.binary64.infinity - (k + 1))
    (Numeral.scaled 4 (.ofInt x.parts.1) x.parts.2).isSome = true := by
  decide +kernel

/-- Fewer digits and a smaller power keep a product finite. -/
theorem isFinite_mul_powerOfTen_of_le {m n e f : ℕ} (hm : m ≤ n) (he : e ≤ f)
    (h : (ofInt n * Numeral.powerOfTen f).isFinite = true) :
    (ofInt m * Numeral.powerOfTen e).isFinite = true :=
  isFinite_ofInt_mul hm (Nat.pow_le_pow_right (by decide) he) h

/-- A product below the fourth largest double is finite. For small powers this follows from the size
of the digits. -/
theorem isFinite_mul_powerOfTen {n e : ℕ} (hn : n < UInt64.size) (he : e ≤ 308)
    (h : n * 10 ^ e < fourthLargest) : (ofInt n * Numeral.powerOfTen e).isFinite = true := by
  rcases Nat.lt_or_ge e 289 with hsmall | hlarge
  · have hlast : (ofInt UInt64.size * Numeral.powerOfTen 288).isFinite = true := by decide +kernel
    exact isFinite_mul_powerOfTen_of_le hn.le (Nat.le_of_lt_succ hsmall) hlast
  · have hrow := isFinite_fourthLargest (e - 289) (List.mem_range.2 (by omega))
    rw [Nat.sub_add_cancel hlarge] at hrow
    have hdigits : n ≤ fourthLargest / Nat.pow 10 e :=
      (Nat.le_div_iff_mul_le (Nat.pow_pos (by decide))).2 h.le
    exact isFinite_mul_powerOfTen_of_le hdigits (Nat.le_refl _) hrow

theorem lt_of_mul_pow_lt {n e f bound : ℕ} (hn : 0 < n) (h : n * 10 ^ e < bound)
    (hbound : bound ≤ Nat.pow 10 f) : e < f := by
  apply (Nat.pow_lt_pow_iff_right (a := 10) (by decide)).1
  calc 10 ^ e ≤ n * 10 ^ e := Nat.le_mul_of_pos_left _ hn
    _ < bound := h
    _ ≤ 10 ^ f := hbound

/-- Digits and a power of ten are read if what they stand for is rounded to less than the largest
numbers. -/
theorem isSome_scaled_of_rankOf {n word : ℕ} {e : ℤ} (hn : n < UInt64.size) (hpos : 0 < word)
    (hrank : rankOf (n * 10 ^ e) = word) (hless : word < Precision.binary64.infinity - 4) :
    (Numeral.scaled 4 (.ofInt n) e).isSome = true := by
  rcases lt_or_ge e 0 with hdown | hup
  · exact isSome_scaled_of_neg _ _ hdown
  obtain ⟨e, rfl⟩ := Int.eq_ofNat_of_zero_le hup
  have hsome : 0 < n := by
    rw [Nat.pos_iff_ne_zero]
    rintro rfl
    have hnone : rankOf 0 = 0 := by decide
    rw [Nat.cast_zero, zero_mul, hnone] at hrank
    omega
  have hvalue : (n : ℚ) * 10 ^ e < fourthLargest := by
    by_contra hmore
    have hranks := rankOf_mono (not_lt.1 hmore)
    rw [rankOf_fourthLargest, ← zpow_natCast, hrank] at hranks
    omega
  have hproduct : n * 10 ^ e < fourthLargest := by exact_mod_cast hvalue
  have hlast : fourthLargest ≤ Nat.pow 10 309 := by decide +kernel
  have hpower := lt_of_mul_pow_lt hsome hproduct hlast
  have hsmall : e ≤ 308 := Nat.le_of_lt_succ hpower
  exact isSome_scaled_of_isFinite hsmall (isFinite_mul_powerOfTen hn hsmall hproduct)

/-- Every finite number is read again as some number. -/
theorem isSome_reread (h : d.isFinite = true) : d.reread.isSome = true := by
  have hword : d.magnitude < Precision.binary64.infinity := of_decide_eq_true h
  rw [reread, Option.isSome_map]
  rcases Nat.eq_zero_or_pos d.magnitude with hzero | hpos
  · rw [decimal, if_pos hzero]
    decide +kernel
  rcases Nat.lt_or_ge d.magnitude (Precision.binary64.infinity - 4) with hless | hlargest
  · have hdigits := Decimal.parts_lt (digits_decimal_lt h)
    exact isSome_scaled_of_rankOf hdigits hpos (rankOf_parts_decimal h hpos) hless
  · have hrow := isSome_scaled_largest (Precision.binary64.infinity - d.magnitude - 1)
      (List.mem_range.2 (by omega))
    have hplace : Precision.binary64.infinity -
        (Precision.binary64.infinity - d.magnitude - 1 + 1) = d.magnitude := by omega
    rw [hplace] at hrow
    rw [decimal_of_ne_zero hpos.ne']
    exact hrow

end Double

end LasFile
