import LasFile.Proofs.Number.Conversion
import LasFile.Proofs.Number.Order

/-!
# Doubles as rational numbers

A finite double stands for a rational number, and each operation rounds the result on these numbers
once. Shifting and scaling by a fixed finite number therefore keep the order of doubles, or reverse
it if the factor is negative. A result past the largest finite double is infinite and still has its
place in that order.
-/

namespace LasFile.Double

/-- The rational number that a finite double stands for. -/
def toRat (d : Double) : ℚ :=
  match d.view with
  | .finite negative num den => signed negative num / den
  | _ => 0

/-- The place of the double nearest to a rational number. -/
def rankOf (q : ℚ) : ℤ := onRat Precision.binary64.ofRatio q

/-- A double that a rational number is rounded to. The two zeros are not told apart. -/
structure Rounds (d : Double) (q : ℚ) : Prop where
  isNaN : d.isNaN = false
  rank : d.rank = rankOf q

variable {a b d : Double} {q r : ℚ}

theorem rankOf_mono (h : q ≤ r) : rankOf q ≤ rankOf r := Precision.binary64.keepsOrder.onRat_mono h

theorem rankOf_nonneg (h : 0 ≤ q) : 0 ≤ rankOf q := by
  have hzero : rankOf 0 = 0 := by decide
  rw [← hzero]
  exact rankOf_mono h

/-- A larger number is rounded to no less. -/
theorem Rounds.ieeeLe (ha : a.Rounds q) (hb : b.Rounds r) (h : q ≤ r) : a.ieeeLe b = true := by
  have hrank : a.rank ≤ b.rank := by
    rw [ha.rank, hb.rank]
    exact rankOf_mono h
  simp [Double.ieeeLe, ha.isNaN, hb.isNaN, hrank]

/-! ## Views -/

theorem isNaN_of_isFinite (h : d.isFinite = true) : d.isNaN = false := by
  unfold isFinite at h
  unfold isNaN
  simp only [decide_eq_true_eq, decide_eq_false_iff_not] at h ⊢
  omega

theorem view_of_isFinite (h : d.isFinite = true) :
    d.view = .finite d.isNegative (Precision.binary64.ratio d.magnitude).1
      (Precision.binary64.ratio d.magnitude).2 := by
  rw [view, if_neg (by simp [isNaN_of_isFinite h]), if_pos h]

/-- A number is finite or infinite. -/
theorem view_of_not_isFinite (hnumber : d.isNaN = false) (h : d.isFinite = false) :
    d.view = .infinite d.isNegative ∧
      d.rank = signed d.isNegative Precision.binary64.infinity := by
  have hmagnitude : d.magnitude = Precision.binary64.infinity := by
    unfold isFinite at h
    unfold isNaN at hnumber
    simp only [decide_eq_false_iff_not] at h hnumber
    omega
  refine ⟨by simp [view, hnumber, h], ?_⟩
  rw [rank, hmagnitude]
  rfl

/-! ## Order -/

theorem rank_ofMagnitude {word : Nat} (h : word < signBit) (negative : Bool) :
    (ofMagnitude negative word).rank = signed negative word := by
  rw [rank, magnitude_ofMagnitude h, isNegative_ofMagnitude h]
  rfl

/-- A word that is no NaN. -/
theorem isNaN_ofMagnitude {word : Nat} (h : word ≤ Precision.binary64.infinity) (negative : Bool) :
    (ofMagnitude negative word).isNaN = false := by
  rw [isNaN, magnitude_ofMagnitude (h.trans_lt infinity_lt_signBit)]
  simpa using h

theorem rounds_ofRatio (negative : Bool) (num : Nat) {den : Nat} (hden : 0 < den) :
    (ofRatio negative num den).Rounds (signed negative num / den) where
  isNaN := isNaN_ofMagnitude (Precision.binary64.ofRatio_le_infinity num den) negative
  rank := by
    have hword := (Precision.binary64.ofRatio_le_infinity num den).trans_lt infinity_lt_signBit
    rw [ofRatio, rank_ofMagnitude hword, rankOf,
      Precision.binary64.keepsOrder.onRat_signed negative num hden]

/-- A finite double is what its own number is rounded to. -/
theorem rounds_toRat (h : d.isFinite = true) : d.Rounds d.toRat where
  isNaN := isNaN_of_isFinite h
  rank := by
    have hden := Precision.binary64.ratio_den_pos d.magnitude
    have hfinite : d.magnitude < Precision.binary64.infinity := of_decide_eq_true h
    have hword := Precision.ofRatio_of_eq_value hden hfinite.le
      (Precision.binary64.ratio_eq_value d.magnitude)
    rw [toRat, view_of_isFinite h]
    simp only
    rw [rankOf, Precision.binary64.keepsOrder.onRat_signed _ _ hden, hword]
    rfl

theorem toRat_eq_of_rank_eq (ha : a.isFinite = true) (hb : b.isFinite = true)
    (h : a.rank = b.rank) : a.toRat = b.toRat := by
  rw [toRat, toRat, view_of_isFinite ha, view_of_isFinite hb, magnitude_eq_of_rank_eq h]
  simp only
  by_cases hzero : b.magnitude = 0
  · have hnum : (Precision.binary64.ratio 0).1 = 0 := by decide
    rw [hzero, hnum]
    simp [signed]
  · rw [isNegative_eq_of_rank_eq h hzero]

/-- The order of finite doubles is that of their numbers. -/
theorem toRat_le_toRat (ha : a.isFinite = true) (hb : b.isFinite = true) (h : a.rank ≤ b.rank) :
    a.toRat ≤ b.toRat := by
  by_contra hless
  have hback : b.rank ≤ a.rank := by
    rw [(rounds_toRat ha).rank, (rounds_toRat hb).rank]
    exact rankOf_mono (not_le.1 hless).le
  exact hless (toRat_eq_of_rank_eq ha hb (le_antisymm h hback)).le

/-! ## Operations -/

theorem signed_natAbs (n : ℤ) : signed (n < 0) n.natAbs = n := by
  simp only [signed, decide_eq_true_eq]
  split <;> omega

theorem rounds_ofSigned (zeroNegative : Bool) (num : ℤ) {den : Nat} (hden : 0 < den) :
    (ofSigned zeroNegative num den).Rounds (num / den) := by
  unfold ofSigned
  split
  next hzero =>
    have hplace : rankOf 0 = signed zeroNegative 0 := by
      cases zeroNegative <;> decide
    subst hzero
    rw [Int.cast_zero, zero_div]
    exact ⟨isNaN_ofMagnitude (Nat.zero_le _) _, by
      rw [rank_ofMagnitude (Nat.two_pow_pos 63), hplace]⟩
  next hzero =>
    have h := rounds_ofRatio (num < 0) num.natAbs hden
    rwa [signed_natAbs] at h

theorem signed_mul (negative : Bool) (m n : Nat) :
    signed negative (m * n) = signed negative m * n := by
  cases negative <;> simp [signed]

theorem signed_mul_signed (s t : Bool) (m n : Nat) :
    signed (s != t) (m * n) = signed s m * signed t n := by
  cases s <;> cases t <;> simp [signed]

theorem rounds_addViews (s t : Bool) (m n : Nat) {d e : Nat} (hd : 0 < d) (he : 0 < e) :
    (addViews (.finite s m d) (.finite t n e)).Rounds (signed s m / d + signed t n / e) := by
  have hd' : (d : ℚ) ≠ 0 := by exact_mod_cast hd.ne'
  have he' : (e : ℚ) ≠ 0 := by exact_mod_cast he.ne'
  have h := rounds_ofSigned (s && t) (signed s (m * e) + signed t (n * d)) (Nat.mul_pos hd he)
  have hratio : ((signed s (m * e) + signed t (n * d) : ℤ) : ℚ) / (d * e : ℕ) =
      signed s m / d + signed t n / e := by
    rw [signed_mul, signed_mul]
    push_cast
    rw [div_add_div _ _ hd' he', mul_comm (d : ℚ) (signed t n : ℚ)]
  rwa [hratio] at h

/-- A finite double as the ratio that the operations work on. -/
theorem exists_view (h : d.isFinite = true) : ∃ num den, 0 < den ∧
    d.view = .finite d.isNegative num den ∧ d.toRat = signed d.isNegative num / den := by
  refine ⟨_, _, Precision.binary64.ratio_den_pos d.magnitude, view_of_isFinite h, ?_⟩
  rw [toRat, view_of_isFinite h]

theorem withoutNaN_of_isFinite (compute : View → View → Double) (ha : a.isFinite = true)
    (hb : b.isFinite = true) : withoutNaN compute a b = compute a.view b.view := by
  rw [withoutNaN, if_neg (by simp [isNaN_of_isFinite ha]), if_neg (by simp [isNaN_of_isFinite hb])]

theorem rounds_add (ha : a.isFinite = true) (hb : b.isFinite = true) :
    (a + b).Rounds (a.toRat + b.toRat) := by
  have hsum : a + b = addViews a.view b.view := withoutNaN_of_isFinite addViews ha hb
  obtain ⟨m, d, hd, haview, haratio⟩ := exists_view ha
  obtain ⟨n, e, he, hbview, hbratio⟩ := exists_view hb
  rw [hsum, haview, hbview, haratio, hbratio]
  exact rounds_addViews _ _ m n hd he

theorem rounds_sub (ha : a.isFinite = true) (hb : b.isFinite = true) :
    (a - b).Rounds (a.toRat - b.toRat) := by
  have hdifference : a - b = addViews a.view b.view.flip := withoutNaN_of_isFinite _ ha hb
  obtain ⟨m, d, hd, haview, haratio⟩ := exists_view ha
  obtain ⟨n, e, he, hbview, hbratio⟩ := exists_view hb
  have hflip : (signed (!b.isNegative) n : ℚ) / e = -(signed b.isNegative n / e) := by
    cases b.isNegative <;> simp [signed, neg_div]
  rw [hdifference, haview, hbview, haratio, hbratio, sub_eq_add_neg, ← hflip]
  exact rounds_addViews _ _ m n hd he

theorem rounds_mul (ha : a.isFinite = true) (hb : b.isFinite = true) :
    (a * b).Rounds (a.toRat * b.toRat) := by
  have hproduct : a * b = mulViews a.view b.view := withoutNaN_of_isFinite mulViews ha hb
  obtain ⟨m, d, hd, haview, haratio⟩ := exists_view ha
  obtain ⟨n, e, he, hbview, hbratio⟩ := exists_view hb
  rw [hproduct, haview, hbview, haratio, hbratio, div_mul_div_comm]
  have h := rounds_ofRatio (a.isNegative != b.isNegative) (m * n) (Nat.mul_pos hd he)
  rw [signed_mul_signed] at h
  exact_mod_cast h

theorem rounds_div (ha : a.isFinite = true) (hb : b.isFinite = true) (hzero : b.toRat ≠ 0) :
    (a / b).Rounds (a.toRat / b.toRat) := by
  have hquotient : a / b = divViews a.view b.view := withoutNaN_of_isFinite divViews ha hb
  obtain ⟨m, d, hd, haview, haratio⟩ := exists_view ha
  obtain ⟨n, e, he, hbview, hbratio⟩ := exists_view hb
  have hn : 0 < n := by
    rw [Nat.pos_iff_ne_zero]
    rintro rfl
    exact hzero (by rw [hbratio]; simp [signed])
  have hd' : (d : ℚ) ≠ 0 := by exact_mod_cast hd.ne'
  have hn' : (n : ℚ) ≠ 0 := by exact_mod_cast hn.ne'
  have h := rounds_ofRatio (a.isNegative != b.isNegative) (m * e) (Nat.mul_pos hd hn)
  have hratio : (signed (a.isNegative != b.isNegative) (m * e) : ℚ) / (d * n : ℕ) =
      signed a.isNegative m / d / (signed b.isNegative n / e) := by
    cases a.isNegative <;> cases b.isNegative <;> simp [signed] <;> field_simp
  rw [hratio] at h
  rw [hquotient, haview, hbview, haratio, hbratio]
  simpa only [divViews, if_neg hn.ne'] using h

/-- The nearest integer of a finite double. -/
theorem nearestInt?_of_isFinite (h : d.isFinite = true) :
    d.nearestInt? = some (onRat Tie.away.quotient d.toRat) := by
  obtain ⟨num, den, hden, hview, hratio⟩ := exists_view h
  rw [nearestInt?, hview, hratio, Tie.away.keepsOrder.onRat_signed _ _ hden]
  rfl

theorem rounds_round (h : d.isFinite = true) :
    d.round.Rounds (onRat Tie.away.quotient d.toRat) := by
  obtain ⟨num, den, hden, hview, hratio⟩ := exists_view h
  have hwhole := rounds_ofRatio d.isNegative (Tie.away.quotient num den) one_pos
  rw [Nat.cast_one, div_one] at hwhole
  rw [round, hview, hratio, Tie.away.keepsOrder.onRat_signed _ _ hden]
  exact hwhole

/-! ## Finite results -/

theorem isFinite_infinity (negative : Bool) : (infinity negative).isFinite = false := by
  cases negative <;> decide

theorem isFinite_indefinite : indefinite.isFinite = false := by decide

theorem isFinite_of_isNaN (h : d.isNaN = true) : d.isFinite = false := by
  by_contra hfinite
  simp [isNaN_of_isFinite (by simpa using hfinite)] at h

/-- A NaN stays a NaN when it becomes quiet. -/
theorem isNaN_quiet (h : d.isNaN = true) : d.quiet.isNaN = true := by
  have hword : d.magnitude ≤ d.quiet.magnitude := by
    have hsign : signBit = 2 ^ 63 := by decide
    rw [magnitude, magnitude, quiet, UInt64.toNat_or, hsign, Nat.or_mod_two_pow]
    exact Nat.left_le_or
  unfold isNaN at h ⊢
  rw [decide_eq_true_eq] at h ⊢
  omega

theorem isFinite_of_nearestInt? {n : ℤ} (h : d.nearestInt? = some n) : d.isFinite = true := by
  cases hnumber : d.isNaN with
  | true => simp [nearestInt?, view, hnumber] at h
  | false =>
    by_contra hinfinite
    obtain ⟨hview, -⟩ := view_of_not_isFinite hnumber (by simpa using hinfinite)
    simp [nearestInt?, hview] at h

theorem isFinite_of_round (h : d.round.isFinite = true) : d.isFinite = true := by
  cases hnumber : d.isNaN with
  | true =>
    have hround : d.round = d.quiet := by simp [round, view, hnumber]
    rw [hround, isFinite_of_isNaN (isNaN_quiet hnumber)] at h
    exact absurd h Bool.false_ne_true
  | false =>
    by_contra hinfinite
    obtain ⟨hview, -⟩ := view_of_not_isFinite hnumber (by simpa using hinfinite)
    have hround : d.round = d := by simp [round, hview]
    exact hinfinite (hround ▸ h)

theorem withoutNaN_of_isFinite_result {compute : View → View → Double}
    (h : (withoutNaN compute a b).isFinite = true) : a.isNaN = false ∧ b.isNaN = false ∧
      withoutNaN compute a b = compute a.view b.view := by
  unfold withoutNaN at h ⊢
  cases ha : a.isNaN with
  | true => simp [ha, isFinite_of_isNaN (isNaN_quiet ha)] at h
  | false =>
    cases hb : b.isNaN with
    | true => simp [ha, hb, isFinite_of_isNaN (isNaN_quiet hb)] at h
    | false => simp

theorem isNaN_of_sub (h : (a - b).isNaN = false) : a.isNaN = false := by
  by_contra hnumber
  have hquiet : a - b = a.quiet := if_pos (by simpa using hnumber)
  rw [hquiet, isNaN_quiet (by simpa using hnumber)] at h
  exact Bool.false_ne_true h.symm

/-- A finite difference comes from finite numbers. -/
theorem isFinite_of_sub (h : (a - b).isFinite = true) :
    a.isFinite = true ∧ b.isFinite = true := by
  obtain ⟨ha, hb, hviews⟩ := withoutNaN_of_isFinite_result h
  have hdifference : (addViews a.view b.view.flip).isFinite = true := hviews ▸ h
  cases hafinite : a.isFinite with
  | true =>
    refine ⟨rfl, ?_⟩
    by_contra hbinfinite
    obtain ⟨_, _, -, haview, -⟩ := exists_view hafinite
    obtain ⟨hbview, -⟩ := view_of_not_isFinite hb (by simpa using hbinfinite)
    simp [haview, hbview, View.flip, addViews, isFinite_infinity] at hdifference
  | false =>
    obtain ⟨haview, -⟩ := view_of_not_isFinite ha hafinite
    cases hbfinite : b.isFinite with
    | true =>
      obtain ⟨_, _, -, hbview, -⟩ := exists_view hbfinite
      simp [haview, hbview, View.flip, addViews, isFinite_infinity] at hdifference
    | false =>
      obtain ⟨hbview, -⟩ := view_of_not_isFinite hb hbfinite
      simp only [haview, hbview, View.flip, addViews] at hdifference
      split at hdifference <;>
        simp [isFinite_infinity, isFinite_indefinite] at hdifference

/-- A finite quotient by a finite number comes from a finite number, and not by zero. -/
theorem isFinite_of_div (hb : b.isFinite = true) (h : (a / b).isFinite = true) :
    a.isFinite = true ∧ b.toRat ≠ 0 := by
  obtain ⟨ha, -, hviews⟩ := withoutNaN_of_isFinite_result h
  have hquotient : (divViews a.view b.view).isFinite = true := hviews ▸ h
  obtain ⟨n, e, he, hbview, hbratio⟩ := exists_view hb
  cases hafinite : a.isFinite with
  | true =>
    refine ⟨rfl, fun hzero ↦ ?_⟩
    obtain ⟨m, d, -, haview, -⟩ := exists_view hafinite
    have hn : n = 0 := by
      have he' : (e : ℚ) ≠ 0 := by exact_mod_cast he.ne'
      rw [hbratio, div_eq_zero_iff, or_iff_left he'] at hzero
      unfold signed at hzero
      split at hzero <;> simpa using hzero
    simp only [haview, hbview, hn, divViews, if_true] at hquotient
    split at hquotient <;>
      simp [isFinite_infinity, isFinite_indefinite] at hquotient
  | false =>
    obtain ⟨haview, -⟩ := view_of_not_isFinite ha hafinite
    simp [haview, hbview, divViews, isFinite_infinity] at hquotient

/-- A finite product comes from finite numbers. -/
theorem isFinite_of_mul (h : (a * b).isFinite = true) :
    a.isFinite = true ∧ b.isFinite = true := by
  obtain ⟨ha, hb, hviews⟩ := withoutNaN_of_isFinite_result h
  have hproduct : (mulViews a.view b.view).isFinite = true := hviews ▸ h
  cases hafinite : a.isFinite with
  | true =>
    refine ⟨rfl, ?_⟩
    by_contra hbinfinite
    obtain ⟨_, _, -, haview, -⟩ := exists_view hafinite
    obtain ⟨hbview, -⟩ := view_of_not_isFinite hb (by simpa using hbinfinite)
    simp only [haview, hbview, mulViews] at hproduct
    split at hproduct <;> simp [isFinite_infinity, isFinite_indefinite] at hproduct
  | false =>
    obtain ⟨haview, -⟩ := view_of_not_isFinite ha hafinite
    cases hbfinite : b.isFinite with
    | true =>
      obtain ⟨_, _, -, hbview, -⟩ := exists_view hbfinite
      simp only [haview, hbview, mulViews] at hproduct
      split at hproduct <;> simp [isFinite_infinity, isFinite_indefinite] at hproduct
    | false =>
      obtain ⟨hbview, -⟩ := view_of_not_isFinite hb hbfinite
      simp [haview, hbview, mulViews, isFinite_infinity] at hproduct

/-- A number between zero and a finite one is finite. -/
theorem isFinite_of_rank_le (hleast : 0 ≤ a.rank) (h : a.rank ≤ b.rank) (hb : b.isFinite = true) :
    a.isFinite = true := by
  unfold isFinite at hb ⊢
  rw [magnitude_eq_natAbs_rank, decide_eq_true_eq] at hb ⊢
  omega

/-! ## Sums past the largest double -/

theorem abs_rank_le (h : d.isNaN = false) : |d.rank| ≤ Precision.binary64.infinity := by
  unfold isNaN at h
  rw [decide_eq_false_iff_not] at h
  rw [abs_le, rank]
  split <;> omega

theorem abs_rank_lt (h : d.isFinite = true) : |d.rank| < Precision.binary64.infinity := by
  unfold isFinite at h
  rw [decide_eq_true_eq] at h
  rw [abs_lt, rank]
  split <;> omega

theorem rank_add_of_not_isFinite (hnumber : a.isNaN = false) (ha : a.isFinite = false)
    (hb : b.isFinite = true) : (a + b).isNaN = false ∧ (a + b).rank = a.rank := by
  obtain ⟨haview, hrank⟩ := view_of_not_isFinite hnumber ha
  obtain ⟨_, _, -, hbview, -⟩ := exists_view hb
  have hsum : a + b = infinity a.isNegative := by
    have hviews : a + b = addViews a.view b.view := by
      show withoutNaN addViews a b = _
      rw [withoutNaN, if_neg (by simp [hnumber]), if_neg (by simp [isNaN_of_isFinite hb])]
    rw [hviews, haview, hbview]
    rfl
  rw [hsum, hrank]
  exact ⟨isNaN_ofMagnitude le_rfl _, rank_ofMagnitude infinity_lt_signBit _⟩

theorem isNaN_add (ha : a.isNaN = false) (hb : b.isFinite = true) : (a + b).isNaN = false := by
  cases hfinite : a.isFinite with
  | true => exact (rounds_add hfinite hb).isNaN
  | false => exact (rank_add_of_not_isFinite ha hfinite hb).1

/-- Adding a finite number keeps the places of numbers. An infinity keeps its own place, which is
the first or the last. -/
theorem rank_add_le (ha : a.isNaN = false) (hb : b.isNaN = false) (hd : d.isFinite = true)
    (h : a.rank ≤ b.rank) : (a + d).rank ≤ (b + d).rank := by
  have hsum := abs_le.1 (abs_rank_le (isNaN_add ha hd))
  have hsum' := abs_le.1 (abs_rank_le (isNaN_add hb hd))
  cases hafinite : a.isFinite with
  | true =>
    cases hbfinite : b.isFinite with
    | true =>
      rw [(rounds_add hafinite hd).rank, (rounds_add hbfinite hd).rank]
      exact rankOf_mono (add_le_add_left (toRat_le_toRat hafinite hbfinite h) _)
    | false =>
      have hless := abs_lt.1 (abs_rank_lt hafinite)
      have hplace := (view_of_not_isFinite hb hbfinite).2
      rw [(rank_add_of_not_isFinite hb hbfinite hd).2]
      unfold signed at hplace
      split at hplace <;> omega
  | false =>
    have hplace := (view_of_not_isFinite ha hafinite).2
    rw [(rank_add_of_not_isFinite ha hafinite hd).2]
    cases hbfinite : b.isFinite with
    | true =>
      have hless := abs_lt.1 (abs_rank_lt hbfinite)
      unfold signed at hplace
      split at hplace <;> omega
    | false => rwa [(rank_add_of_not_isFinite hb hbfinite hd).2]

theorem add_ieeeLe_add_right (hd : d.isFinite = true) (h : a.ieeeLe b = true) :
    (a + d).ieeeLe (b + d) = true := by
  simp only [Double.ieeeLe, Bool.and_eq_true, Bool.not_eq_true', decide_eq_true_eq] at h
  obtain ⟨⟨ha, hb⟩, hrank⟩ := h
  simp [Double.ieeeLe, isNaN_add ha hd, isNaN_add hb hd, rank_add_le ha hb hd hrank]

end LasFile.Double
