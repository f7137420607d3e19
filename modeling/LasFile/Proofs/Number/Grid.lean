import LasFile.Proofs.Number.Rational
import LasFile.Transform

/-!
# Numbers on a grid

A value is stored as the whole number nearest to its place on the grid, and what is read back is the
value of that place. Storing and reading keep the order of values, also on a grid that runs
backwards: a negative scale reverses the order twice.
-/

namespace LasFile

namespace Double

/-- A whole number of at most fifty-three bits is held exactly, and so are its multiples by powers
of two. -/
theorem toRat_ofInt_mul {n : ℤ} {m k : ℕ} (hn : n.natAbs = m * 2 ^ k)
    (hm : m < 2 * Precision.binary64.hiddenBit) (hk : k ≤ 971) :
    (ofInt n).isFinite = true ∧ (ofInt n).toRat = n := by
  obtain ⟨word, hword, hround, hratio⟩ := exists_ofRatio_mul_eq hm hk
  rw [← hn] at hround hratio
  have hden : ((Precision.binary64.ratio word).2 : ℚ) ≠ 0 := by
    exact_mod_cast (Precision.binary64.ratio_den_pos word).ne'
  have hview : (ofInt n).view = .finite (n < 0) (Precision.binary64.ratio word).1
      (Precision.binary64.ratio word).2 := by
    rw [ofInt, ofRatio, hround, view_ofMagnitude hword]
  constructor
  · rw [isFinite, ofInt, ofRatio, hround, magnitude_ofMagnitude (hword.trans infinity_lt_signBit)]
    exact decide_eq_true hword
  · rw [toRat, hview]
    simp only
    rw [hratio, signed_mul, signed_natAbs, Int.cast_mul, Int.cast_natCast,
      mul_div_cancel_right₀ _ hden]

/-- A whole number of at most fifty-three bits is held exactly. -/
theorem toRat_ofInt {n : ℤ} (hn : n.natAbs < 2 * Precision.binary64.hiddenBit) :
    (ofInt n).isFinite = true ∧ (ofInt n).toRat = n :=
  toRat_ofInt_mul (k := 0) (by simp) hn (Nat.zero_le _)

theorem rounds_ofInt (n : ℤ) : (ofInt n).Rounds n := by
  have h := rounds_ofRatio (n < 0) n.natAbs one_pos
  rwa [signed_natAbs, Nat.cast_one, div_one] at h

/-- The double of a whole number lies between zero and that of a larger one. -/
theorem toRat_ofInt_le {m n : ℕ} (h : m ≤ n) (hn : (ofInt n).isFinite = true) :
    (ofInt m).isFinite = true ∧ 0 ≤ (ofInt m).toRat ∧ (ofInt m).toRat ≤ (ofInt n).toRat := by
  have hranks : (ofInt m).rank ≤ (ofInt n).rank := by
    rw [(rounds_ofInt m).rank, (rounds_ofInt n).rank]
    exact rankOf_mono (by exact_mod_cast h)
  have hleast : 0 ≤ (ofInt m).rank := by
    rw [(rounds_ofInt m).rank]
    exact rankOf_nonneg (by positivity)
  have hm := isFinite_of_rank_le hleast hranks hn
  obtain ⟨hzero, hnone⟩ := toRat_ofInt (n := 0) (by decide)
  have hfirst : (ofInt 0).rank = 0 := by decide
  have hpositive := toRat_le_toRat hzero hm (by rwa [hfirst])
  rw [hnone] at hpositive
  exact ⟨hm, hpositive, toRat_le_toRat hm hn hranks⟩

/-- Smaller whole numbers have a smaller product. -/
theorem isFinite_ofInt_mul {m n p q : ℕ} (hm : m ≤ n) (hp : p ≤ q)
    (h : (ofInt n * ofInt q).isFinite = true) : (ofInt m * ofInt p).isFinite = true := by
  obtain ⟨hn, hq⟩ := isFinite_of_mul h
  obtain ⟨hm, hm', hmn⟩ := toRat_ofInt_le hm hn
  obtain ⟨hp, hp', hpq⟩ := toRat_ofInt_le hp hq
  apply isFinite_of_rank_le _ _ h
  · rw [(rounds_mul hm hp).rank]
    exact rankOf_nonneg (mul_nonneg hm' hp')
  · rw [(rounds_mul hm hp).rank, (rounds_mul hn hq).rank]
    exact rankOf_mono (mul_le_mul hmn hpq hp' (hm'.trans hmn))

end Double

namespace Transform

open Double

/-- A value as it is read back after it was stored, if it has a nearest point on the grid. -/
def regrid (t : Transform) (value : Double) : Option Double :=
  (t.toStored value).nearestInt?.map fun n ↦ t.fromStored (.ofInt n)

variable {t : Transform} {v w : Double} {n m : ℤ}

theorem isNaN_of_nearestInt? (h : (t.toStored v).nearestInt? = some n) : v.isNaN = false := by
  have hplace := isFinite_of_round (isFinite_of_nearestInt? h)
  exact isNaN_of_sub (withoutNaN_of_isFinite_result hplace).1

/-- A value that is stored on a grid of finite scale. -/
structure Stores (t : Transform) (v : Double) (n : ℤ) : Prop where
  value : v.isFinite = true
  offset : t.offset.isFinite = true
  scale_ne_zero : t.scale.toRat ≠ 0
  shifted : (v - t.offset).isFinite = true
  place : (t.onGrid v).isFinite = true
  stored : (t.toStored v).isFinite = true
  eq : n = onRat Tie.away.quotient (t.toStored v).toRat

/-- Nothing on the way to the grid is infinite. -/
theorem stores_of_nearestInt? (hscale : t.scale.isFinite = true)
    (h : (t.toStored v).nearestInt? = some n) : t.Stores v n := by
  have hstored := isFinite_of_nearestInt? h
  have hplace := isFinite_of_round hstored
  obtain ⟨hshifted, hzero⟩ := isFinite_of_div hscale hplace
  obtain ⟨hvalue, hoffset⟩ := isFinite_of_sub hshifted
  rw [nearestInt?_of_isFinite hstored, Option.some.injEq] at h
  exact ⟨hvalue, hoffset, hzero, hshifted, hplace, hstored, h.symm⟩

/-- The number that is stored grows with the place on the grid. -/
theorem Stores.le (hscale : t.scale.isFinite = true) (hv : t.Stores v n) (hw : t.Stores w m)
    (h : (v - t.offset).toRat / t.scale.toRat ≤ (w - t.offset).toRat / t.scale.toRat) :
    n ≤ m := by
  have hplaces : (t.onGrid v).toRat ≤ (t.onGrid w).toRat := by
    apply toRat_le_toRat hv.place hw.place
    rw [onGrid, onGrid, (rounds_div hv.shifted hscale hv.scale_ne_zero).rank,
      (rounds_div hw.shifted hscale hw.scale_ne_zero).rank]
    exact rankOf_mono h
  have hstored : (t.toStored v).toRat ≤ (t.toStored w).toRat := by
    apply toRat_le_toRat hv.stored hw.stored
    rw [toStored, toStored, (rounds_round hv.place).rank, (rounds_round hw.place).rank]
    apply rankOf_mono
    exact_mod_cast Tie.away.keepsOrder.onRat_mono hplaces
  rw [hv.eq, hw.eq]
  exact Tie.away.keepsOrder.onRat_mono hstored

/-- What is read back grows with the number stored and its scale. -/
theorem fromStored_ieeeLe (hscale : t.scale.isFinite = true) (hoffset : t.offset.isFinite = true)
    (hn : n.natAbs < 2 * Precision.binary64.hiddenBit)
    (hm : m.natAbs < 2 * Precision.binary64.hiddenBit)
    (h : n * t.scale.toRat ≤ m * t.scale.toRat) :
    (t.fromStored (.ofInt n)).ieeeLe (t.fromStored (.ofInt m)) = true := by
  obtain ⟨hfirst, hnumber⟩ := toRat_ofInt hn
  obtain ⟨hsecond, hnumber'⟩ := toRat_ofInt hm
  apply add_ieeeLe_add_right hoffset
  apply (rounds_mul hfirst hscale).ieeeLe (rounds_mul hsecond hscale)
  rwa [hnumber, hnumber']

/-- Storing and reading back keep the order of values. -/
theorem Stores.fromStored_ieeeLe (hscale : t.scale.isFinite = true) (hv : t.Stores v n)
    (hw : t.Stores w m) (hn : n.natAbs < 2 * Precision.binary64.hiddenBit)
    (hm : m.natAbs < 2 * Precision.binary64.hiddenBit) (h : v.ieeeLe w = true) :
    (t.fromStored (.ofInt n)).ieeeLe (t.fromStored (.ofInt m)) = true := by
  have hrank : v.rank ≤ w.rank := by
    simp only [ieeeLe, Bool.and_eq_true, decide_eq_true_eq] at h
    exact h.2
  have hshifted : (v - t.offset).toRat ≤ (w - t.offset).toRat := by
    apply toRat_le_toRat hv.shifted hw.shifted
    rw [(rounds_sub hv.value hv.offset).rank, (rounds_sub hw.value hw.offset).rank]
    exact rankOf_mono (sub_le_sub_right (toRat_le_toRat hv.value hw.value hrank) _)
  apply Transform.fromStored_ieeeLe hscale hv.offset hn hm
  rcases lt_or_gt_of_ne hv.scale_ne_zero with hnegative | hpositive
  · have hreversed : m ≤ n :=
      hw.le hscale hv (div_le_div_of_nonpos_of_le hnegative.le hshifted)
    exact mul_le_mul_of_nonpos_right (by exact_mod_cast hreversed) hnegative.le
  · have hkept : n ≤ m := hv.le hscale hw (div_le_div_of_nonneg_right hshifted hpositive.le)
    exact mul_le_mul_of_nonneg_right (by exact_mod_cast hkept) hpositive.le

end Transform

end LasFile
