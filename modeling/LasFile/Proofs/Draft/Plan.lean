import LasFile.Proofs.Draft.Front
import LasFile.Proofs.Settings.Named

/-!
# Plans of files

Settings that name their dimensions, together with the given records, determine all of a file that
does not depend on the points. A `Plan` collects what they determine, with the proofs that they do:
the front of the file for every day of creation. A new draft that goes through is the draft of a
plan.
-/

namespace LasFile

open Outcome

/-- What settings and records determine of a file whose dimensions are named. -/
structure Plan (settings : Settings) (vlrs : List Vlr) where
  format : FormatLayout
  minor : UInt8
  /-- The dimensions that the entries name. -/
  given : List ExtraDim
  /-- The record that describes these dimensions, if there are any. -/
  description : List Vlr
  /-- The bytes of the records in front of the points. -/
  blocks : List Bytes
  format_eq : FormatLayout.ofNumber? settings.pointFormat = some format
  minor_eq : settings.minorToWrite = .ok minor
  given_eq : settings.extraDims.mapM Selection.parseEntry = .ok given
  recordLength_le : format.recordLength given ≤ Draft.maxRecordLength
  description_eq : Draft.dimRecords given = .ok description
  blocks_eq : ((vlrs.filter fun v ↦ !v.isExtraBytes) ++ description).mapM (·.encode .short) =
    .ok blocks

namespace Plan

variable {settings : Settings} {vlrs : List Vlr} (plan : Plan settings vlrs)

/-- Bytes of the record of a point. -/
def recordLength : Nat := plan.format.recordLength plan.given

/-- The dimensions in their places behind the standard fields. -/
def dims : List ExtraDim := ExtraDim.contiguous plan.format.baseSize plan.given

def layout : RecordLayout := .ofFormat settings.pointFormat settings.scaling plan.dims

/-- The records in front of the points: those given, but for descriptions of extra dimensions, and
behind them the description of those named. -/
def records : List Vlr := (vlrs.filter fun v ↦ !v.isExtraBytes) ++ plan.description

/-- The header before anything was counted. -/
def header (created : CreationDate) : Header :=
  Draft.headerFor (.create created settings.pointFormat plan.minor settings.scaling) plan.records
    plan.recordLength

/-- The draft that is ready to take points. -/
def draft (memory : Bytes) (created : CreationDate) : Draft where
  sink := .holding memory ((plan.header created).encode ++ plan.blocks.flatten)
  header := plan.header created
  vlrs := plan.records
  layout := some plan.layout
  tally := .empty

theorem minor_le : plan.minor ≤ 4 := by
  obtain ⟨minimum, -, -, h⟩ := Settings.minorToWrite_eq_ok plan.minor_eq
  exact h

/-- The front of the file. -/
def front (created : CreationDate) :
    Front (.create created settings.pointFormat plan.minor settings.scaling)
      (vlrs.filter fun v ↦ !v.isExtraBytes) plan.given where
  format := plan.format
  description := plan.description
  blocks := plan.blocks
  isNew := Header.isNew_create created settings.pointFormat plan.minor_le settings.scaling
  format_eq := plan.format_eq
  recordLength_le := plan.recordLength_le
  description_eq := plan.description_eq
  blocks_eq := plan.blocks_eq

/-- A new draft whose dimensions are named is that of a plan. -/
theorem exists_of_create {memory : Bytes} {created : CreationDate} {d : Draft}
    (hcreate : Draft.create memory created settings vlrs = .ok d)
    (hnamed : ∀ entry ∈ settings.extraDims, Text.trim entry ≠ "all") :
    ∃ plan : Plan settings vlrs, d = plan.draft memory created := by
  obtain ⟨format, minor, selection, hformat, hminor, hselection, hstart⟩ :=
    Draft.create_eq_ok hcreate
  obtain ⟨given, hgiven, rfl⟩ := (Selection.parse_eq_ok_of_named hnamed).1 hselection
  obtain ⟨minimum, -, -, hmost⟩ := Settings.minorToWrite_eq_ok hminor
  have hnew := Header.isNew_create created settings.pointFormat hmost settings.scaling
  simp only [ExtraDim.relocate_contiguous] at hstart
  obtain ⟨front, rfl⟩ := Front.exists_of_start hnew hformat hstart
  exact ⟨⟨front.format, minor, given, front.description, front.blocks, front.format_eq, hminor,
    hgiven, front.recordLength_le, front.description_eq, front.blocks_eq⟩, rfl⟩

end Plan

end LasFile
