import LasFile.Proofs.Draft.Tally

/-!
# Older counts

The older thirty-two bit fields of a header are meant to state the counts exactly or not at all. The
number of points and the late returns are looked at before the fields are used, the counts of the
first five returns are not: one of them that needs more than thirty-two bits is stated by what is
left of it. `Header.legacy_withPointCounts` says for which counts this happens. Counts of points are
never among them, since no return is counted more often than there are points.
-/

namespace LasFile.Header

open Tally (get_eq_getElem)

/-- The older fields state all counts exactly, so that there are none they have no place for. -/
structure LegacyExact (h : Header) : Prop where
  points : h.legacyPoints.toNat = h.points.toNat
  early : ∀ i : Fin 5,
    (h.legacyByReturn.get i).toNat = (h.byReturn.get (i.castLE (by decide))).toNat
  late : ∀ i : Fin 15, 5 ≤ i.val → h.byReturn.get i = 0

/-- The older fields state nothing. -/
structure LegacyClear (h : Header) : Prop where
  points : h.legacyPoints = 0
  byReturn : ∀ i, h.legacyByReturn.get i = 0

variable {h : Header} {count : UInt64} {byReturn : Vector UInt64 15}

/-- The conditions that are looked at before the older fields are used. -/
theorem fitsLegacy_iff : h.fitsLegacy count byReturn = true ↔
    h.format < 6 ∧ count.toNat < UInt32.size ∧
      ∀ i : Fin 15, 5 ≤ i.val → byReturn.get i = 0 := by
  unfold fitsLegacy
  rw [Bool.and_eq_true, Bool.and_eq_true, decide_eq_true_eq, decide_eq_true_eq,
    Tally.all_drop_five, and_assoc]

@[simp]
theorem points_withPointCounts (h : Header) (count : UInt64) (byReturn : Vector UInt64 15) :
    (h.withPointCounts count byReturn).points = count := by
  unfold withPointCounts
  dsimp only
  split <;> rfl

@[simp]
theorem byReturn_withPointCounts (h : Header) (count : UInt64) (byReturn : Vector UInt64 15) :
    (h.withPointCounts count byReturn).byReturn = byReturn := by
  unfold withPointCounts
  dsimp only
  split <;> rfl

theorem withPointCounts_of_fits (hfits : h.fitsLegacy count byReturn = true) :
    h.withPointCounts count byReturn =
      { h with
        points := count
        byReturn := byReturn
        legacyPoints := count.toUInt32
        legacyByReturn := .ofFn fun i ↦ (byReturn.get (i.castLE (by decide))).toUInt32 } :=
  if_pos hfits

theorem withPointCounts_of_not_fits (hfits : h.fitsLegacy count byReturn = false) :
    h.withPointCounts count byReturn =
      { h with
        points := count
        byReturn := byReturn
        legacyPoints := 0
        legacyByReturn := .replicate 5 0 } :=
  if_neg (Bool.eq_false_iff.1 hfits)

/-- Fields that are not used are clear. -/
theorem legacyClear_withPointCounts (hfits : h.fitsLegacy count byReturn = false) :
    (h.withPointCounts count byReturn).LegacyClear := by
  rw [withPointCounts_of_not_fits hfits]
  refine ⟨rfl, fun i ↦ ?_⟩
  simp [get_eq_getElem]

/-- Fields that are used state the number of points, which was looked at. -/
theorem legacyPoints_withPointCounts (hfits : h.fitsLegacy count byReturn = true) :
    (h.withPointCounts count byReturn).legacyPoints.toNat = count.toNat := by
  rw [withPointCounts_of_fits hfits, UInt64.toNat_toUInt32]
  exact Nat.mod_eq_of_lt (fitsLegacy_iff.1 hfits).2.1

/-- Of the early returns, fields that are used state what thirty-two bits hold of the counts. -/
theorem legacyByReturn_withPointCounts (hfits : h.fitsLegacy count byReturn = true) (i : Fin 5) :
    ((h.withPointCounts count byReturn).legacyByReturn.get i).toNat =
      (byReturn.get (i.castLE (by decide))).toNat % UInt32.size := by
  rw [withPointCounts_of_fits hfits, get_eq_getElem, Vector.getElem_ofFn]
  exact UInt64.toNat_toUInt32 _

/-- Fields that are used are exact exactly if no count of an early return is too great. -/
theorem legacyExact_withPointCounts_iff (hfits : h.fitsLegacy count byReturn = true) :
    (h.withPointCounts count byReturn).LegacyExact ↔
      ∀ i : Fin 5, (byReturn.get (i.castLE (by decide))).toNat < UInt32.size := by
  constructor
  · intro hexact i
    have hstated := hexact.early i
    rw [legacyByReturn_withPointCounts hfits, byReturn_withPointCounts] at hstated
    rw [← hstated]
    exact Nat.mod_lt _ (by decide)
  · intro hsmall
    constructor
    · rw [legacyPoints_withPointCounts hfits, points_withPointCounts]
    · intro i
      rw [legacyByReturn_withPointCounts hfits, byReturn_withPointCounts]
      exact Nat.mod_eq_of_lt (hsmall i)
    · rw [byReturn_withPointCounts]
      exact (fitsLegacy_iff.1 hfits).2.2

/-- Fields that are used are clear exactly if there are no points and nothing is left of the counts
of the early returns. -/
theorem legacyClear_withPointCounts_iff (hfits : h.fitsLegacy count byReturn = true) :
    (h.withPointCounts count byReturn).LegacyClear ↔
      count = 0 ∧ ∀ i : Fin 5, UInt32.size ∣ (byReturn.get (i.castLE (by decide))).toNat := by
  have hpoints : (h.withPointCounts count byReturn).legacyPoints = 0 ↔ count = 0 := by
    rw [← UInt32.toNat_inj, legacyPoints_withPointCounts hfits, UInt32.toNat_zero,
      ← UInt64.toNat_inj, UInt64.toNat_zero]
  have hreturn : ∀ i : Fin 5, (h.withPointCounts count byReturn).legacyByReturn.get i = 0 ↔
      UInt32.size ∣ (byReturn.get (i.castLE (by decide))).toNat := by
    intro i
    rw [← UInt32.toNat_inj, legacyByReturn_withPointCounts hfits, UInt32.toNat_zero,
      Nat.dvd_iff_mod_eq_zero]
  constructor
  · rintro ⟨hnone, hclear⟩
    exact ⟨hpoints.1 hnone, fun i ↦ (hreturn i).1 (hclear i)⟩
  · rintro ⟨hnone, hclear⟩
    exact ⟨hpoints.2 hnone, fun i ↦ (hreturn i).2 (hclear i)⟩

/-- After the counts are set the older fields are exact or clear, for all headers and counts but
these: the format is an older one, the number of points needs no more than thirty-two bits, there
are no late returns, but the count of some early return needs more than thirty-two bits, and what is
stated is not zero throughout by chance. -/
theorem legacy_withPointCounts (h : Header) (count : UInt64) (byReturn : Vector UInt64 15) :
    (h.withPointCounts count byReturn).points = count ∧
    (h.withPointCounts count byReturn).byReturn = byReturn ∧
    ((h.withPointCounts count byReturn).LegacyExact ∨
      (h.withPointCounts count byReturn).LegacyClear ↔
        (h.format < 6 → count.toNat < UInt32.size →
          (∀ i : Fin 15, 5 ≤ i.val → byReturn.get i = 0) →
            (∀ i : Fin 5, (byReturn.get (i.castLE (by decide))).toNat < UInt32.size) ∨
            count = 0 ∧
              ∀ i : Fin 5, UInt32.size ∣ (byReturn.get (i.castLE (by decide))).toNat)) := by
  refine ⟨points_withPointCounts h count byReturn, byReturn_withPointCounts h count byReturn, ?_⟩
  cases hfits : h.fitsLegacy count byReturn with
  | false =>
    constructor
    · intro _ hformat hcount hlate
      have hused := fitsLegacy_iff.2 ⟨hformat, hcount, hlate⟩
      cases hfits.symm.trans hused
    · intro _
      exact .inr (legacyClear_withPointCounts hfits)
  | true =>
    rw [legacyExact_withPointCounts_iff hfits, legacyClear_withPointCounts_iff hfits]
    obtain ⟨hformat, hcount, hlate⟩ := fitsLegacy_iff.1 hfits
    constructor
    · intro hsettled _ _ _
      exact hsettled
    · intro hsettled
      exact hsettled hformat hcount hlate

/-- Five first returns more than thirty-two bits hold are stated as five. -/
example : let h := blank.withPointCounts 5 (.ofFn fun i ↦ if i = 0 then 0x100000005 else 0)
    h.legacyPoints = 5 ∧ h.legacyByReturn = #v[5, 0, 0, 0, 0] := by
  decide

/-! ## Counts of points -/

/-- Counts that are bounded by their total are stated exactly or not at all. -/
theorem legacyExact_or_legacyClear_of_le (hle : ∀ i, byReturn.get i ≤ count) :
    (h.withPointCounts count byReturn).LegacyExact ∨
      (h.withPointCounts count byReturn).LegacyClear := by
  cases hfits : h.fitsLegacy count byReturn with
  | false => exact .inr (legacyClear_withPointCounts hfits)
  | true =>
    refine .inl ((legacyExact_withPointCounts_iff hfits).2 fun i ↦ ?_)
    exact Nat.lt_of_le_of_lt (UInt64.le_iff_toNat_le.1 (hle _)) (fitsLegacy_iff.1 hfits).2.1

/-- The older counts of the points of a file are exact or clear. -/
theorem legacy_withTally_ofPoints (h : Header) {points : List Point}
    (hcount : points.length < UInt64.size) :
    (h.withTally (.ofPoints points)).LegacyExact ∨
      (h.withTally (.ofPoints points)).LegacyClear := by
  have hle : ∀ i, ((Tally.ofPoints points).byReturn.map UInt64.ofNat).get i ≤
      UInt64.ofNat (Tally.ofPoints points).count := by
    intro i
    have hreturn := List.countP_le_length (p := fun p ↦ Tally.returnOf p = i.val + 1) (l := points)
    rw [get_eq_getElem, Vector.getElem_map, ← get_eq_getElem, Tally.byReturn_ofPoints,
      Tally.count_ofPoints, UInt64.le_iff_toNat_le, UInt64.toNat_ofNat_of_lt' hcount,
      UInt64.toNat_ofNat_of_lt' (Nat.lt_of_le_of_lt hreturn hcount)]
    exact hreturn
  have hcounts := legacyExact_or_legacyClear_of_le (h := h) hle
  unfold withTally
  dsimp only
  split
  · exact hcounts
  · exact hcounts.imp (fun hexact ↦ ⟨hexact.points, hexact.early, hexact.late⟩)
      fun hclear ↦ ⟨hclear.points, hclear.byReturn⟩

end LasFile.Header
