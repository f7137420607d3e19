import LasFile.Proofs.Draft.Run
import LasFile.Proofs.Draft.Tally
import LasFile.Proofs.ExtraDim.Contiguous
import LasFile.Proofs.Record.Length
import LasFile.Proofs.Settings.Format
import LasFile.Proofs.Vlr.Length

/-!
# Fronts of files

A header, the records to go behind it and the dimensions of the points fix all of a file that does
not depend on the points, however the dimensions were settled. A `Front` collects what they fix,
with the proofs that they do. A start that goes through leaves the draft of a front, and every run
of that draft leaves a header, the records, and the accepted points in order.
-/

namespace LasFile

open Draft Outcome

/-- A header that nothing was written behind yet. -/
structure Header.IsNew (h : Header) : Prop where
  major : h.version.major = 1
  minor : h.version.minor ≤ 4
  headerSize : h.headerSize = Version.headerSize h.version.minor
  evlrCount : h.evlrCount = 0

theorem Header.isNew_create (created : CreationDate) (format : UInt8) {minor : UInt8}
    (hminor : minor ≤ 4) (scaling : Scaling) : (create created format minor scaling).IsNew :=
  ⟨rfl, hminor, rfl, rfl⟩

/-- What a header, the records behind it and the dimensions of the points fix of a file. -/
structure Front (base : Header) (others : List Vlr) (given : List ExtraDim) where
  format : FormatLayout
  /-- The record that describes the dimensions, if there are any. -/
  description : List Vlr
  /-- The bytes of the records in front of the points. -/
  blocks : List Bytes
  isNew : base.IsNew
  format_eq : FormatLayout.ofNumber? base.formatByte = some format
  recordLength_le : format.recordLength given ≤ Draft.maxRecordLength
  description_eq : Draft.dimRecords given = .ok description
  blocks_eq : (others ++ description).mapM (·.encode .short) = .ok blocks

namespace Front

variable {base : Header} {others : List Vlr} {given : List ExtraDim}
variable (front : Front base others given)

/-- Bytes of the record of a point. -/
def recordLength : Nat := front.format.recordLength given

/-- The dimensions in their places behind the standard fields. -/
def dims : List ExtraDim := ExtraDim.contiguous front.format.baseSize given

def layout : RecordLayout := .ofFormat base.formatByte base.scaling front.dims

/-- The records in front of the points. -/
def records : List Vlr := others ++ front.description

/-- The header before anything was counted. -/
def header : Header := headerFor base front.records front.recordLength

/-- The draft that is ready to take points. -/
def draft (memory : Bytes) : Draft where
  sink := .holding memory (front.header.encode ++ front.blocks.flatten)
  header := front.header
  vlrs := front.records
  layout := some front.layout
  tally := .empty

/-- The place of the points fits its field. -/
def PlaceFits : Prop := base.headerSize.toNat + Vlr.totalSize .short front.records < UInt32.size

theorem placeFits_draft (memory : Bytes) : (front.draft memory).PlaceFits ↔ front.PlaceFits :=
  Iff.rfl

/-! ## What is written in front -/

theorem toNat_recordLength_header : front.header.recordLength.toNat = front.recordLength :=
  UInt16.toNat_ofNat_of_lt' (Nat.lt_succ_of_le front.recordLength_le)

theorem length_blocks : front.blocks.flatten.length = Vlr.totalSize .short front.records :=
  Vlr.length_flatten_encode front.blocks_eq

/-- The description of dimensions does not tell where they are placed. -/
theorem dimRecords_contiguous (start : Int) (dims : List ExtraDim) :
    dimRecords (ExtraDim.contiguous start dims) = dimRecords dims := by
  have hentries := ExtraDim.map_contiguous Descriptor.ofDim (fun _ _ ↦ rfl) start dims
  rw [dimRecords, dimRecords, hentries, ExtraDim.isEmpty_contiguous]

/-- The description is one record if there is something to describe. -/
theorem description_cases : (given = [] ∧ front.description = []) ∨ ∃ data,
    Descriptor.encodeAll (given.map Descriptor.ofDim) = .ok data ∧ front.description =
      [.of Vlr.extraBytesUser Vlr.extraBytesRecord "Extra Bytes Record" data] := by
  have hdescription := front.description_eq
  rw [dimRecords] at hdescription
  split at hdescription
  next hnone => exact .inl ⟨List.isEmpty_iff.1 hnone, (Except.ok.inj hdescription).symm⟩
  next =>
    simp only [map_eq_ok, Vlr.extraBytes, bind_eq_ok, pure_eq_ok] at hdescription
    obtain ⟨v, ⟨data, hdata, rfl⟩, hone⟩ := hdescription
    exact .inr ⟨data, hdata, hone.symm⟩

/-- A start that goes through leaves the draft of a front. -/
theorem exists_of_start {memory : Bytes} {vlrs : List Vlr} {format : FormatLayout} {s : Draft}
    (hnew : base.IsNew) (hformat : FormatLayout.ofNumber? base.formatByte = some format)
    (hstart : start (ExtraDim.contiguous format.baseSize given) (blank memory base vlrs) =
      .ok () s) :
    ∃ front : Front base (vlrs.filter fun v ↦ !v.isExtraBytes) given, s = front.draft memory := by
  obtain ⟨prepared, blocks, hprepared, hblocks, rfl⟩ := start_eq_ok.1 hstart
  obtain ⟨known, description, hknown, hlength, hdescription, rfl⟩ := prepare_eq_ok.1 hprepared
  have hnumber : base.format = base.formatByte := (Header.format_eq_formatByte hformat).1
  obtain rfl : format = known := by
    have hsame : FormatLayout.ofNumber? base.format = some known := hknown
    rw [hnumber, hformat] at hsame
    exact Option.some.inj hsame
  have hsize := ExtraDim.recordLength_contiguous format format.baseSize given
  rw [hsize] at hlength hblocks
  rw [dimRecords_contiguous] at hdescription
  refine ⟨⟨format, description, blocks, hnew, hformat, hlength, hdescription, hblocks⟩, ?_⟩
  rw [hsize]
  have hlayout : ∀ records length, (headerFor base records length).format = base.formatByte :=
    fun _ _ ↦ hnumber
  simp only [started, draft, blank, hlayout]
  rfl

/-! ## Contents -/

/-- The points that are accepted. -/
def accepted (points : List Point) : List Point := takenBy front.layout front.recordLength points

/-- The records of the accepted points. -/
def pointRecords (points : List Point) : List Bytes :=
  recordsOf front.layout front.recordLength points

/-- The header of the finished file. -/
def finalHeader (points : List Point) : Header :=
  front.header.withTally (.ofPoints (front.accepted points))

/-- What is written in the end: the header, the records in front of the points, and the points. -/
def written (points : List Point) : Bytes :=
  (front.finalHeader points).encode ++ front.blocks.flatten ++ (front.pointRecords points).flatten

theorem length_of_mem_pointRecords {points : List Point} {record : Bytes}
    (h : record ∈ front.pointRecords points) : record.length = front.recordLength := by
  obtain ⟨p, -, hp⟩ := List.mem_filterMap.1 h
  cases hencode : front.layout.encode front.recordLength p with
  | error e =>
    rw [hencode] at hp
    cases hp
  | ok packed =>
    rw [hencode] at hp
    cases hp
    exact front.layout.length_encode front.recordLength p _ hencode

theorem length_finalHeader (points : List Point) :
    (front.finalHeader points).encode.length = base.headerSize.toNat := by
  rw [finalHeader, Header.length_encode_withTally, Header.length_encode, front.isNew.headerSize]
  rfl

/-- The place of the points if it fits its field. -/
theorem toNat_offsetToPoints {points : List Point} (hplace : front.PlaceFits) :
    (front.finalHeader points).offsetToPoints.toNat =
      (front.finalHeader points).encode.length + front.blocks.flatten.length := by
  rw [length_finalHeader, length_blocks, finalHeader,
    Header.apply_withTally Header.offsetToPoints fun _ _ _ _ _ _ _ ↦ rfl]
  exact UInt32.toNat_ofNat_of_lt' hplace

/-- Records that take no more than the place of the points tells are few enough to be counted. -/
theorem length_records_lt (hplace : front.PlaceFits) :
    front.records.length < UInt32.size :=
  Nat.lt_of_le_of_lt ((Vlr.length_le_totalSize .short front.records).trans (Nat.le_add_left _ _))
    hplace

/-- The records that the header counts, which are those whose number fits its field. -/
def counted : List Vlr := front.records.take (front.records.length % UInt32.size)

theorem counted_eq (hfew : front.records.length < UInt32.size) : front.counted = front.records := by
  rw [counted, Nat.mod_eq_of_lt hfew, List.take_length]

theorem toNat_vlrCount (points : List Point) :
    (front.finalHeader points).vlrCount.toNat = front.counted.length := by
  rw [finalHeader, Header.apply_withTally Header.vlrCount fun _ _ _ _ _ _ _ ↦ rfl, counted,
    List.length_take, Nat.min_eq_left (Nat.mod_le _ _)]
  exact UInt32.toNat_ofNat'

/-- The number of records if it fits its field. -/
theorem toNat_vlrCount_of_lt (hfew : front.records.length < UInt32.size) (points : List Point) :
    (front.finalHeader points).vlrCount.toNat = front.records.length := by
  rw [toNat_vlrCount, front.counted_eq hfew]

theorem toNat_recordLength (points : List Point) :
    (front.finalHeader points).recordLength.toNat = front.recordLength := by
  rw [finalHeader, Header.apply_withTally Header.recordLength fun _ _ _ _ _ _ _ ↦ rfl]
  exact front.toNat_recordLength_header

/-! ## Runs -/

/-- Every run of the draft of a front. -/
theorem writeAll_draft (memory : Bytes) (points : List Point) :
    (front.draft memory).writeAll points =
      { draft := { front.draft memory with
          sink := .holding memory (front.header.encode ++ front.blocks.flatten ++
            (front.pointRecords points).flatten)
          tally := .ofPoints (front.accepted points) }
        answers := points.map fun p ↦
          (front.layout.encode front.recordLength p).map fun _ ↦ ()
        accepted := front.accepted points } := by
  have hlength : (front.draft memory).header.recordLength.toNat = front.recordLength :=
    front.toNat_recordLength_header
  have hrun := writeAll_of_layout (d := front.draft memory) rfl rfl points
  rw [hlength] at hrun
  exact hrun

/-- The draft of a front accepts a point if its record can be packed. -/
theorem writePoint_draft_eq_ok {memory : Bytes} {p : Point} {next : Draft} :
    writePoint p (front.draft memory) = .ok () next ↔
      ∃ record, front.layout.encode front.recordLength p = .ok record ∧
        next = (front.draft memory).accept p record := by
  have hlength : (front.draft memory).header.recordLength.toNat = front.recordLength :=
    front.toNat_recordLength_header
  rw [writePoint_of_layout (d := front.draft memory) rfl, hlength]
  cases front.layout.encode front.recordLength p with
  | error e => simp
  | ok record => simp [eq_comm]

/-- Every run can be finished. -/
theorem finish_writeAll_draft (memory : Bytes) (points : List Point) :
    finish ((front.draft memory).writeAll points).draft =
      .ok () ((front.draft memory).writeAll points).draft.finished := by
  rw [writeAll_draft]
  exact finish_of_layout rfl

theorem header_finished_writeAll_draft (memory : Bytes) (points : List Point) :
    ((front.draft memory).writeAll points).draft.finished.header = front.finalHeader points := by
  rw [writeAll_draft]
  rfl

/-- The final header is written over the one of the start, and memory reaches past the points. -/
theorem bytes_finished_writeAll_draft (memory : Bytes) (points : List Point) :
    ((front.draft memory).writeAll points).draft.finished.sink.bytes =
      front.written points ++ memory.drop (front.written points).length := by
  have hheader : (front.finalHeader points).encode.length = front.header.encode.length :=
    Header.length_encode_withTally _ _
  have hwritten : front.written points = (front.finalHeader points).encode ++
      (front.blocks.flatten ++ (front.pointRecords points).flatten) := List.append_assoc ..
  calc ((front.draft memory).writeAll points).draft.finished.sink.bytes
      = (((Sink.holding memory (front.header.encode ++ (front.blocks.flatten ++
          (front.pointRecords points).flatten))).seek 0).write
          (front.finalHeader points).encode).bytes := by
        rw [writeAll_draft, List.append_assoc]
        rfl
    _ = (Sink.holding memory (front.written points)).bytes := by
        rw [Sink.bytes_seek_write_holding hheader, hwritten]
    _ = front.written points ++ memory.drop (front.written points).length := rfl

/-- The file that a run leaves. -/
theorem close_writeAll_draft (memory : Bytes) (points : List Point) :
    ((front.draft memory).writeAll points).draft.close =
      .ok (front.written points ++ memory.drop (front.written points).length) := by
  rw [close, finish_writeAll_draft, ← bytes_finished_writeAll_draft]

/-! ## The header read back -/

theorem version_finalHeader (points : List Point) :
    (front.finalHeader points).version = base.version :=
  Header.version_withTally _ _

/-- The header of the finished file as it is read. -/
def reread (points : List Point) : Header := (front.finalHeader points).reread

/-- The finished file begins with its header. -/
theorem decode_written (points : List Point) (tail : Bytes) :
    Header.decode (front.written points ++ tail) = .ok (front.reread points) := by
  have hversion := front.version_finalHeader points
  rw [written, List.append_assoc, List.append_assoc]
  exact Header.decode_encode_append _ (by rw [hversion, front.isNew.major])
    (by rw [hversion]; exact front.isNew.minor) _

end Front

end LasFile
