import LasFile.Proofs.Number.Exact

/-!
# Conversions that lose nothing

A whole number of at most fifty-three bits is the nearest integer of its double, and a single that
is no NaN comes back from double precision as it was.
-/

namespace LasFile

/-- A word is its sign and what stands below it. -/
theorem sign_add_magnitude {bits sign : Nat} (h : bits < 2 * sign) :
    (if decide (sign ≤ bits) then sign else 0) + bits % sign = bits := by
  split
  next hsign =>
    rw [decide_eq_true_eq] at hsign
    rw [Nat.mod_eq_sub_mod hsign, Nat.mod_eq_of_lt (by omega)]
    omega
  next hsign =>
    rw [decide_eq_true_eq] at hsign
    rw [Nat.mod_eq_of_lt (by omega), Nat.zero_add]

/-! ## Doubles -/

namespace Double

/-- A double is its magnitude with its sign. -/
@[simp]
theorem ofMagnitude_magnitude (d : Double) : ofMagnitude d.isNegative d.magnitude = d := by
  have hlt : d.bits.toNat < 2 * signBit := d.bits.toNat_lt
  rw [ofMagnitude, isNegative, magnitude, sign_add_magnitude hlt, UInt64.ofNat_toNat]

theorem infinity_lt_signBit : Precision.binary64.infinity < signBit := by decide

theorem toNat_bits_ofMagnitude {word : Nat} (h : word < signBit) (negative : Bool) :
    (ofMagnitude negative word).bits.toNat = (if negative then signBit else 0) + word := by
  have htwice : 2 * signBit = UInt64.size := by decide
  apply UInt64.toNat_ofNat_of_lt'
  split <;> omega

@[simp]
theorem magnitude_ofMagnitude {word : Nat} (h : word < signBit) (negative : Bool) :
    (ofMagnitude negative word).magnitude = word := by
  rw [magnitude, toNat_bits_ofMagnitude h]
  cases negative with
  | true => rw [if_pos rfl, Nat.add_mod_left, Nat.mod_eq_of_lt h]
  | false => rw [if_neg Bool.false_ne_true, Nat.zero_add, Nat.mod_eq_of_lt h]

@[simp]
theorem isNegative_ofMagnitude {word : Nat} (h : word < signBit) (negative : Bool) :
    (ofMagnitude negative word).isNegative = negative := by
  rw [isNegative, toNat_bits_ofMagnitude h]
  cases negative with
  | true => simp
  | false => simpa using h

/-- The other sign is put before the same magnitude. -/
theorem neg_ofMagnitude {word : Nat} (h : word < signBit) :
    (ofMagnitude false word).neg = ofMagnitude true word := by
  have hsign : signBit = 2 ^ 63 := by decide
  have hword : (ofMagnitude false word).bits.toNat = word := by simp [toNat_bits_ofMagnitude h]
  have hquotient : (word ^^^ signBit) / signBit = 1 := by
    rw [hsign] at h ⊢
    rw [Nat.xor_div_two_pow, Nat.div_eq_of_lt h]
    rfl
  have hrest : (word ^^^ signBit) % signBit = word := by
    rw [hsign] at h ⊢
    rw [Nat.xor_mod_two_pow, Nat.mod_self, Nat.mod_eq_of_lt h, Nat.xor_zero]
  have hsum : word ^^^ signBit = signBit + word := by
    rw [← Nat.div_add_mod (word ^^^ signBit) signBit, hquotient, hrest, Nat.mul_one]
  have hbits : (ofMagnitude false word).neg.bits.toNat = (ofMagnitude true word).bits.toNat := by
    rw [toNat_bits_ofMagnitude h, if_pos rfl, ← hsum]
    show ((ofMagnitude false word).bits ^^^ 0x8000000000000000).toNat = _
    rw [UInt64.toNat_xor, hword]
    rfl
  exact congrArg Double.mk (UInt64.toNat_inj.1 hbits)

/-- A finite magnitude with a sign stands for its ratio. -/
theorem view_ofMagnitude {word : Nat} (h : word < Precision.binary64.infinity) (negative : Bool) :
    (ofMagnitude negative word).view = .finite negative (Precision.binary64.ratio word).1
      (Precision.binary64.ratio word).2 := by
  have hword := h.trans infinity_lt_signBit
  have hnumber : ¬Precision.binary64.infinity < word := Nat.not_lt.2 h.le
  simp [view, isNaN, isFinite, hword, h, hnumber]

/-- The numbers of at most fifty-three bits are held exactly, and so are their multiples by powers
of two. -/
theorem exists_ofRatio_mul_eq {m k : Nat} (hm : m < 2 * Precision.binary64.hiddenBit)
    (hk : k ≤ 971) : ∃ word < Precision.binary64.infinity,
      Precision.binary64.ofRatio (m * 2 ^ k) 1 = word ∧
      (Precision.binary64.ratio word).1 = m * 2 ^ k * (Precision.binary64.ratio word).2 := by
  have htop : Precision.binary64.topField = 2047 := by decide
  have hminimum : Precision.binary64.minExponent = -1074 := by decide
  obtain ⟨word, hword, hvalue⟩ := Precision.exists_value_eq (k := 1074 + k) hm (by omega)
  have hexponent : Precision.binary64.minExponent + (1074 + k : ℕ) = k := by omega
  rw [hexponent, zpow_natCast] at hvalue
  have hratio := Precision.binary64.ratio_eq_value word
  have hden : ((Precision.binary64.ratio word).2 : ℚ) ≠ 0 := by
    exact_mod_cast (Precision.binary64.ratio_den_pos word).ne'
  rw [hvalue, div_eq_iff hden] at hratio
  refine ⟨word, hword, Precision.ofRatio_of_eq_value one_pos hword.le ?_,
    by exact_mod_cast hratio⟩
  rw [hvalue, Nat.cast_one, div_one]
  push_cast
  rfl

/-- The numbers of at most fifty-three bits are held exactly. -/
theorem exists_ofRatio_eq {n : Nat} (hn : n < 2 * Precision.binary64.hiddenBit) :
    ∃ word < Precision.binary64.infinity, Precision.binary64.ofRatio n 1 = word ∧
      (Precision.binary64.ratio word).1 = n * (Precision.binary64.ratio word).2 := by
  have h := exists_ofRatio_mul_eq hn (Nat.zero_le 971)
  rwa [pow_zero, mul_one] at h

/-- An integer of at most fifty-three bits is the nearest one to its double. -/
theorem nearestInt?_ofInt {n : Int} (hn : n.natAbs < 2 * Precision.binary64.hiddenBit) :
    (ofInt n).nearestInt? = some n := by
  obtain ⟨word, hword, hround, hratio⟩ := exists_ofRatio_eq hn
  have hden := Precision.binary64.ratio_den_pos word
  have hview : (ofInt n).view = .finite (n < 0) (Precision.binary64.ratio word).1
      (Precision.binary64.ratio word).2 := by
    rw [ofInt, ofRatio, hround, view_ofMagnitude hword]
  simp only [nearestInt?, hview, hratio, Tie.quotient_mul_right _ _ hden, decide_eq_true_eq]
  split <;> congr 1 <;> omega

theorem magnitude_eq_natAbs_rank (d : Double) : d.magnitude = d.rank.natAbs := by
  unfold rank
  split <;> omega

theorem magnitude_eq_of_rank_eq {a b : Double} (h : a.rank = b.rank) :
    a.magnitude = b.magnitude := by
  rw [magnitude_eq_natAbs_rank, magnitude_eq_natAbs_rank, h]

/-- Only the two zeros share a place and differ in their signs. -/
theorem isNegative_eq_of_rank_eq {a b : Double} (h : a.rank = b.rank) (hzero : b.magnitude ≠ 0) :
    a.isNegative = b.isNegative := by
  unfold rank at h
  cases ha : a.isNegative <;> cases hb : b.isNegative <;> simp [ha, hb] at h ⊢ <;> omega

/-- Numbers of one value have the same nearest integer, also the two zeros. -/
theorem nearestInt?_eq_of_ieeeEq {a b : Double} (h : a.ieeeEq b = true) :
    a.nearestInt? = b.nearestInt? := by
  simp only [ieeeEq, Bool.and_eq_true, Bool.not_eq_true', beq_iff_eq] at h
  obtain ⟨⟨hfirst, hsecond⟩, hrank⟩ := h
  have hmagnitude := magnitude_eq_of_rank_eq hrank
  have hfinite : a.isFinite = b.isFinite := by rw [isFinite, isFinite, hmagnitude]
  cases hb : b.isFinite with
  | false => simp [nearestInt?, view, hfirst, hsecond, hfinite, hb]
  | true =>
    simp only [nearestInt?, view, hfirst, hsecond, hfinite, hb, hmagnitude, Bool.false_eq_true,
      if_true, if_false]
    by_cases hzero : b.magnitude = 0
    · have hnone : (Tie.away.quotient (Precision.binary64.ratio 0).1
          (Precision.binary64.ratio 0).2 : Int) = 0 := by decide
      simp only [hzero, hnone, Int.neg_zero, ite_self]
    · rw [isNegative_eq_of_rank_eq hrank hzero]

end Double

/-! ## Singles -/

namespace Single

/-- A single is its magnitude with its sign. -/
@[simp]
theorem ofMagnitude_magnitude (s : Single) : ofMagnitude s.isNegative s.magnitude = s := by
  have hlt : s.bits.toNat < 2 * signBit := s.bits.toNat_lt
  rw [ofMagnitude, isNegative, magnitude, sign_add_magnitude hlt, UInt32.ofNat_toNat]

theorem infinity_lt_signBit : Precision.binary32.infinity < signBit := by decide

theorem toNat_bits_ofMagnitude {word : ℕ} (h : word < signBit) (negative : Bool) :
    (ofMagnitude negative word).bits.toNat = (if negative then signBit else 0) + word := by
  have htwice : 2 * signBit = UInt32.size := by decide
  apply UInt32.toNat_ofNat_of_lt'
  split <;> omega

theorem magnitude_ofMagnitude {word : ℕ} (h : word < signBit) (negative : Bool) :
    (ofMagnitude negative word).magnitude = word := by
  rw [magnitude, toNat_bits_ofMagnitude h]
  cases negative with
  | true => rw [if_pos rfl, Nat.add_mod_left, Nat.mod_eq_of_lt h]
  | false => rw [if_neg Bool.false_ne_true, Nat.zero_add, Nat.mod_eq_of_lt h]

theorem isNegative_ofMagnitude {word : ℕ} (h : word < signBit) (negative : Bool) :
    (ofMagnitude negative word).isNegative = negative := by
  rw [isNegative, toNat_bits_ofMagnitude h]
  cases negative with
  | true => simp
  | false => simpa using h

/-- Every finite single is a double. -/
theorem exists_value_eq_binary32 {word : Nat} (h : word < Precision.binary32.infinity) :
    ∃ wide < Precision.binary64.infinity,
      Precision.binary64.value wide = Precision.binary32.value word := by
  obtain ⟨hsignificand, -⟩ := Precision.binary32.significand_bounds word
  have hleast := Precision.binary32.minExponent_le_exponent word
  have hmost : Precision.binary32.exponent word ≤ 104 := by
    have hquotient : word / Precision.binary32.hiddenBit < 255 := by
      apply Nat.div_lt_of_lt_mul
      exact h
    have hminimum : Precision.binary32.minExponent = -149 := by decide
    unfold Precision.exponent
    omega
  have hminimum : Precision.binary32.minExponent = -149 := by decide
  have hwide : Precision.binary64.minExponent = -1074 := by decide
  have hbits : 2 * Precision.binary32.hiddenBit < 2 * Precision.binary64.hiddenBit := by decide
  have htop : Precision.binary64.topField = 2047 := by decide
  obtain ⟨wide, hfinite, hvalue⟩ := Precision.exists_value_eq
    (p := .binary64) (k := (Precision.binary32.exponent word + 1074).toNat)
    (hsignificand.trans hbits) (by omega)
  refine ⟨wide, hfinite, ?_⟩
  have hexponent : Precision.binary64.minExponent +
      ((Precision.binary32.exponent word + 1074).toNat : ℕ) = Precision.binary32.exponent word := by
    omega
  rw [hvalue, hexponent]
  rfl

/-- A finite single is widened to the double of its value. -/
theorem exists_toDouble_eq {s : Single} (h : s.magnitude < Precision.binary32.infinity) :
    ∃ wide < Precision.binary64.infinity, s.toDouble = .ofMagnitude s.isNegative wide ∧
      Precision.binary64.value wide = Precision.binary32.value s.magnitude := by
  obtain ⟨wide, hword, hvalue⟩ := exists_value_eq_binary32 h
  have hround : Precision.binary64.ofRatio (Precision.binary32.ratio s.magnitude).1
      (Precision.binary32.ratio s.magnitude).2 = wide :=
    Precision.ofRatio_of_eq_value (Precision.binary32.ratio_den_pos _) hword.le
      ((Precision.binary32.ratio_eq_value _).trans hvalue.symm)
  refine ⟨wide, hword, ?_, hvalue⟩
  simp only [Single.toDouble, if_neg (Nat.not_lt.2 h.le), if_neg h.ne, Double.ofRatio, hround]

/-- A single that is no NaN survives the way through double precision. -/
theorem toSingle_toDouble {s : Single} (h : s.isNaN = false) : s.toDouble.toSingle = s := by
  rw [isNaN, decide_eq_false_iff_not] at h
  have hinfinity := Double.infinity_lt_signBit
  by_cases htop : s.magnitude = Precision.binary32.infinity
  · have hwide : s.toDouble = .ofMagnitude s.isNegative Precision.binary64.infinity := by
      simp only [Single.toDouble, if_neg h, if_pos htop, Double.infinity]
    simp only [hwide, Double.toSingle, Double.magnitude_ofMagnitude hinfinity,
      Double.isNegative_ofMagnitude hinfinity, lt_irrefl, if_false, if_true, ← htop,
      ofMagnitude_magnitude]
  · have hfinite : s.magnitude < Precision.binary32.infinity := by omega
    obtain ⟨wide, hword, hwide, hvalue⟩ := exists_toDouble_eq hfinite
    have hback : Precision.binary32.ofRatio (Precision.binary64.ratio wide).1
        (Precision.binary64.ratio wide).2 = s.magnitude :=
      Precision.ofRatio_of_eq_value (Precision.binary64.ratio_den_pos _) hfinite.le
        ((Precision.binary64.ratio_eq_value _).trans hvalue)
    simp only [hwide, Double.toSingle, Double.magnitude_ofMagnitude (hword.trans hinfinity),
      Double.isNegative_ofMagnitude (hword.trans hinfinity), if_neg (Nat.not_lt.2 hword.le),
      if_neg hword.ne, hback, ofMagnitude_magnitude]

end Single

end LasFile
