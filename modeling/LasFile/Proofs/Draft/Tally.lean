import LasFile.Draft
import LasFile.Proofs.Header.RoundTrip

/-!
# Tallies in headers

A tally of points counts them, and counts by return number those up to the fifteenth. The header
states the tally in the older fields only if these have a place for every return number seen, so
that a header without the wider fields may state no points where there are some.
-/

namespace LasFile

/-! ## Tallies of points -/

namespace Tally

theorem get_eq_getElem {α : Type} {n : Nat} (values : Vector α n) (i : Fin n) :
    values.get i = values[i.val] := rfl

/-- The tally of some points. -/
def ofPoints (points : List Point) : Tally := points.foldl add empty

theorem count_foldl_add (t : Tally) (points : List Point) :
    (points.foldl add t).count = t.count + points.length := by
  induction points generalizing t with
  | nil => rfl
  | cons p ps ih =>
    have hstep : (t.add p).count = t.count + 1 := rfl
    rw [List.foldl_cons, ih, List.length_cons, hstep]
    omega

theorem byReturn_foldl_add (t : Tally) (points : List Point) (i : Fin 15) :
    (points.foldl add t).byReturn.get i =
      t.byReturn.get i + points.countP fun p ↦ returnOf p = i.val + 1 := by
  induction points generalizing t with
  | nil => rfl
  | cons p ps ih =>
    have hstep : (t.add p).byReturn.get i =
        t.byReturn.get i + if returnOf p = i.val + 1 then 1 else 0 := by
      simp only [add, get_eq_getElem, Vector.getElem_ofFn]
    rw [List.foldl_cons, ih, hstep, List.countP_cons]
    simp only [decide_eq_true_eq]
    omega

@[simp]
theorem count_ofPoints (points : List Point) : (ofPoints points).count = points.length := by
  unfold ofPoints
  rw [count_foldl_add]
  exact Nat.zero_add _

theorem byReturn_ofPoints (points : List Point) (i : Fin 15) :
    (ofPoints points).byReturn.get i = points.countP fun p ↦ returnOf p = i.val + 1 := by
  have hempty : empty.byReturn.get i = 0 := by
    simp only [empty, get_eq_getElem, Vector.getElem_replicate]
  rw [ofPoints, byReturn_foldl_add, hempty, Nat.zero_add]

/-- A return number that only the wider fields have a place for. -/
def IsLate (p : Point) : Prop := 6 ≤ returnOf p ∧ returnOf p ≤ 15

instance (p : Point) : Decidable (IsLate p) := inferInstanceAs (Decidable (_ ∧ _))

theorem all_drop_five (values : Vector UInt64 15) :
    (values.toList.drop 5).all (· == 0) = true ↔ ∀ i : Fin 15, 5 ≤ i.val → values.get i = 0 := by
  simp only [List.all_eq_true, beq_iff_eq, get_eq_getElem]
  constructor
  · intro h i hi
    refine h _ (List.mem_iff_getElem.2 ⟨i.val - 5, ?_, ?_⟩)
    · rw [List.length_drop, Vector.length_toList]
      omega
    · simp only [List.getElem_drop, Nat.add_sub_cancel' hi, Vector.getElem_toList]
  · intro h n hn
    obtain ⟨k, hk, rfl⟩ := List.mem_iff_getElem.1 hn
    rw [List.length_drop, Vector.length_toList] at hk
    simp only [List.getElem_drop, Vector.getElem_toList]
    exact h ⟨5 + k, by omega⟩ (Nat.le_add_right 5 k)

/-- The counts past the fifth return are zero exactly if no return is that late. -/
theorem all_drop_five_ofPoints {points : List Point} (hcount : points.length < UInt64.size) :
    (((ofPoints points).byReturn.map UInt64.ofNat).toList.drop 5).all (· == 0) = true ↔
      ∀ p ∈ points, ¬IsLate p := by
  have hzero : ∀ i : Fin 15, ((ofPoints points).byReturn.map UInt64.ofNat).get i = 0 ↔
      ∀ p ∈ points, returnOf p ≠ i.val + 1 := by
    intro i
    have hfits := Nat.lt_of_le_of_lt (List.countP_le_length (l := points)
      (p := fun p ↦ returnOf p = i.val + 1)) hcount
    have hget : ((ofPoints points).byReturn.map UInt64.ofNat).get i =
        UInt64.ofNat ((ofPoints points).byReturn.get i) := by
      simp only [get_eq_getElem, Vector.getElem_map]
    rw [hget, byReturn_ofPoints, ← UInt64.toNat_inj, UInt64.toNat_ofNat_of_lt' hfits,
      UInt64.toNat_zero, List.countP_eq_zero]
    simp
  simp only [all_drop_five, hzero, IsLate]
  constructor
  · intro h p hp ⟨hlow, hhigh⟩
    exact h ⟨returnOf p - 1, by omega⟩ (by simp only; omega) p hp (by simp only; omega)
  · intro h i hi p hp hreturn
    have hlast := i.isLt
    exact h p hp ⟨by omega, by omega⟩

end Tally

/-! ## Headers with tallies -/

namespace Header

/-- A header that was read back states the number of points that was written. -/
@[simp]
theorem pointCount_reread (h : Header) : h.reread.pointCount = h.pointCount := by
  by_cases hversion : h.version.isExtended = true <;>
    simp [pointCount, reread, rereadCommon, hversion]

/-- A tally changes counts and bounds alone. -/
theorem apply_withTally {α : Type} (g : Header → α)
    (hg : ∀ (h : Header) points byReturn legacyPoints legacyByReturn max min,
      g { h with points, byReturn, legacyPoints, legacyByReturn, max, min } = g h)
    (h : Header) (t : Tally) : g (h.withTally t) = g h := by
  simp only [withTally, withPointCounts]
  split <;> split <;> exact hg h _ _ _ _ _ _

theorem byReturn_withTally (h : Header) (t : Tally) :
    (h.withTally t).byReturn = t.byReturn.map UInt64.ofNat := by
  simp only [withTally, withPointCounts]
  split <;> split <;> rfl

@[simp]
theorem version_withTally (h : Header) (t : Tally) : (h.withTally t).version = h.version :=
  apply_withTally version (fun _ _ _ _ _ _ _ ↦ rfl) h t

/-- The header with a tally is as long as it was. -/
theorem length_encode_withTally (h : Header) (t : Tally) :
    (h.withTally t).encode.length = h.encode.length := by
  rw [length_encode, length_encode, version_withTally]

theorem pointCount_withTally (h : Header) (t : Tally) :
    (h.withTally t).pointCount =
      if h.version.isExtended && UInt64.ofNat t.count != 0 then .ofNat t.count
      else if h.fitsLegacy (.ofNat t.count) (t.byReturn.map UInt64.ofNat) then
        (UInt64.ofNat t.count).toUInt32.toUInt64
      else 0 := by
  simp only [withTally, withPointCounts, pointCount]
  have hfits : ({ h with points := .ofNat t.count, byReturn := t.byReturn.map UInt64.ofNat }
      : Header).fitsLegacy (.ofNat t.count) (t.byReturn.map UInt64.ofNat) =
      h.fitsLegacy (.ofNat t.count) (t.byReturn.map UInt64.ofNat) := rfl
  rw [hfits]
  split <;> split <;> rfl

/-- A header never states more points than there are. -/
theorem pointCount_withTally_le (h : Header) (t : Tally) :
    (h.withTally t).pointCount.toNat ≤ t.count := by
  have hwide : (UInt64.ofNat t.count).toNat ≤ t.count := by
    rw [UInt64.toNat_ofNat']
    exact Nat.mod_le _ _
  rw [pointCount_withTally]
  split
  · exact hwide
  · split
    · rw [UInt32.toNat_toUInt64, UInt64.toNat_toUInt32]
      exact (Nat.mod_le _ _).trans hwide
    · exact Nat.zero_le _

/-- The number of points that a header states. Without the wider fields it is zero if some return
has no place in the older ones. -/
theorem pointCount_withTally_ofPoints {h : Header} {points : List Point}
    (hwide : points.length < UInt64.size)
    (hnarrow : h.version.isExtended = false → h.format < 6 ∧ points.length < UInt32.size) :
    (h.withTally (.ofPoints points)).pointCount.toNat =
      if h.version.isExtended = false ∧ ∃ p ∈ points, Tally.IsLate p then 0 else points.length := by
  have hcount : (UInt64.ofNat points.length).toNat = points.length :=
    UInt64.toNat_ofNat_of_lt' hwide
  rw [pointCount_withTally, Tally.count_ofPoints]
  cases hversion : h.version.isExtended with
  | true =>
    rw [if_neg (show ¬(true = false ∧ _) by simp)]
    by_cases hzero : points.length = 0
    · simp [hzero]
    · have hne : UInt64.ofNat points.length ≠ 0 := fun h ↦
        hzero (by rw [← hcount, h, UInt64.toNat_zero])
      rw [if_pos (by simpa using hne), hcount]
  | false =>
    obtain ⟨hformat, hlength⟩ := hnarrow hversion
    have hlate := Tally.all_drop_five_ofPoints hwide
    have hfits : h.fitsLegacy (.ofNat points.length)
        ((Tally.ofPoints points).byReturn.map UInt64.ofNat) = true ↔
          ¬∃ p ∈ points, Tally.IsLate p := by
      unfold fitsLegacy
      rw [Bool.and_eq_true, Bool.and_eq_true, decide_eq_true_eq, decide_eq_true_eq,
        hcount, hlate]
      simp [hformat, hlength]
    by_cases hsome : ∃ p ∈ points, Tally.IsLate p
    · rw [if_neg (by simp), if_neg fun h ↦ hfits.1 h hsome, if_pos ⟨rfl, hsome⟩, UInt64.toNat_zero]
    · rw [if_neg (by simp), if_pos (hfits.2 hsome), if_neg fun h ↦ hsome h.2,
        UInt32.toNat_toUInt64, UInt64.toNat_toUInt32, hcount]
      exact Nat.mod_eq_of_lt hlength

end Header

end LasFile
