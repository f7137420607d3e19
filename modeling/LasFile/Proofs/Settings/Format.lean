import LasFile.Header.Basic
import LasFile.Proofs.Outcome
import LasFile.Settings.Basic

/-!
# Formats and versions to write

What is known of a point format and a version once they were found fit for writing.
-/

namespace LasFile

/-- The number of a format sets no compression bits. -/
theorem Header.format_eq_formatByte {h : Header} {format : FormatLayout}
    (hformat : FormatLayout.ofNumber? h.formatByte = some format) :
    h.format = h.formatByte ∧ h.isCompressed = false := by
  have hbound : h.formatByte.toNat < 11 := (List.getElem?_eq_some_iff.1 hformat).1
  have hall : ∀ n < 11, UInt8.ofNat n &&& ~~~Header.compressionMask = UInt8.ofNat n ∧
      (UInt8.ofNat n &&& Header.compressionMask != 0) = false := by decide
  have hbyte := hall h.formatByte.toNat hbound
  rwa [UInt8.ofNat_toNat] at hbyte

namespace Settings

variable {s : Settings} {minor : UInt8}

/-- A version to write defines the format that is written. -/
theorem minorToWrite_eq_ok (h : s.minorToWrite = .ok minor) :
    ∃ minimum, FormatLayout.minimumMinor? s.pointFormat = some minimum ∧
      minimum ≤ minor ∧ minor ≤ 4 := by
  simp only [minorToWrite] at h
  split at h
  next => cases h
  next minimum hminimum =>
    have hmost : minimum ≤ 4 := by
      simp only [FormatLayout.minimumMinor?] at hminimum
      grind
    refine ⟨minimum, hminimum, ?_⟩
    split at h
    next =>
      have hmax : max minimum 2 = if minimum ≤ 2 then 2 else minimum := rfl
      cases h
      grind
    next =>
      split at h
      next => cases h
      next hfits =>
        cases h
        grind

/-- Formats from six on need version 1.4. -/
theorem pointFormat_lt_six (h : s.minorToWrite = .ok minor) (hminor : minor < 4) :
    s.pointFormat < 6 := by
  obtain ⟨minimum, hminimum, hleast, -⟩ := minorToWrite_eq_ok h
  simp only [FormatLayout.minimumMinor?] at hminimum
  grind

end Settings

end LasFile
