import LasFile.OpenFile
import LasFile.Proofs.Record.IntegerField
import LasFile.Proofs.Settings.Named

/-!
# Stages of an opening

An opened file went through every stage of its opening, and an `Opening` says what each of them
gave. It follows what the points of the file are read by: the layout is that of one of the formats,
the extra dimensions stand without gaps behind the bytes of that format, wherever they were stated,
and a record has room for the whole layout.
-/

namespace LasFile.OpenFile

open Outcome

/-- The stages of opening a file with some settings. -/
structure Opening (file : Bytes) (settings : Settings) (f : OpenFile) where
  format : FormatLayout
  selection : Selection
  /-- The payload of the record that describes extra dimensions. -/
  description : Bytes
  bytes_eq : f.bytes = file
  header_eq : Header.decode file = .ok f.header
  format_eq : formatOf f.header = .ok format
  catalog_eq : catalogOf file f.header = .ok f.catalog
  selection_eq : settings.selection false = .ok selection
  description_eq :
    payload file f.catalog Vlr.extraBytesUser Vlr.extraBytesRecord = .ok description
  extraDims_eq : chooseDims format.baseSize
    (ExtraDim.relocate format.baseSize selection.explicit) description = .ok f.extraDims
  layout_eq : f.layout = .ofFormat f.header.format f.header.scaling f.extraDims
  checked : checkRecordLength f.header f.layout = .ok ()
  ignored_eq : settings.ignored = .ok f.ignored

variable {file : Bytes} {settings : Settings} {f : OpenFile}

theorem exists_opening (h : ofBytes file settings = .ok f) :
    Nonempty (Opening file settings f) := by
  simp only [ofBytes, bind_eq_ok, pure_eq_ok] at h
  obtain ⟨header, hheader, format, hformat, catalog, hcatalog, selection, hselection, description,
    hdescription, dims, hdims, ⟨⟩, hchecked, ignored, hignored, rfl⟩ := h
  exact ⟨format, selection, description, rfl, hheader, hformat, hcatalog, hselection, hdescription,
    hdims, rfl, hchecked, hignored⟩

/-! ## Stages -/

theorem formatOf_eq_ok {h : Header} {format : FormatLayout} : formatOf h = .ok format ↔
    h.isCompressed = false ∧ FormatLayout.ofNumber? h.format = some format := by
  unfold formatOf
  cases h.isCompressed with
  | true => simp
  | false => cases FormatLayout.ofNumber? h.format <;> simp

theorem checkRecordLength_eq_ok {h : Header} {layout : RecordLayout} :
    checkRecordLength h layout = .ok () ↔ layout.recordLength ≤ h.recordLength.toNat := by
  unfold checkRecordLength
  rw [← Nat.not_lt]
  split <;> simp [*]

/-- Dimensions that are chosen stand without gaps if those that the settings state do. -/
theorem exists_contiguous_of_chooseDims {start : Int} {given dims : List ExtraDim}
    {description : Bytes}
    (h : chooseDims start (ExtraDim.contiguous start given) description = .ok dims) :
    ∃ placed, dims = ExtraDim.contiguous start placed := by
  unfold chooseDims at h
  split at h
  next =>
    cases h
    exact ⟨given, rfl⟩
  next =>
    rw [bind_eq_ok] at h
    obtain ⟨found, hfound, hagree⟩ := h
    split at hagree
    next =>
      obtain ⟨entries, -, hplaced⟩ := bind_eq_ok.1 hfound
      exact ⟨entries.flatMap Descriptor.dims,
        (pure_eq_ok.1 hagree).symm.trans (pure_eq_ok.1 hplaced).symm⟩
    next => cases hagree

/-- Dimensions of the settings are moved behind the format without gaps. -/
theorem exists_contiguous_of_selection {selection : Selection}
    (h : settings.selection false = .ok selection) (start : Int) :
    ∃ given, ExtraDim.relocate start selection.explicit = ExtraDim.contiguous start given := by
  cases selection with
  | all => exact ⟨[], rfl⟩
  | only dims =>
    obtain ⟨given, rfl, -⟩ := Selection.exists_of_parse_eq_only h
    exact ⟨given, ExtraDim.relocate_contiguous start given⟩

namespace Opening

variable (opening : Opening file settings f)

include opening

/-- The format is the one that the header names. -/
theorem ofNumber?_eq : FormatLayout.ofNumber? f.header.format = some opening.format :=
  (formatOf_eq_ok.1 opening.format_eq).2

theorem isConfigured_layout : f.layout.isConfigured = true := by
  rw [opening.layout_eq]
  exact RecordLayout.isConfigured_ofFormat opening.ofNumber?_eq _ _

/-- Extra dimensions stand without gaps behind the format, wherever they were stated. -/
theorem exists_extraDims_eq :
    ∃ dims, f.extraDims = ExtraDim.contiguous opening.format.baseSize dims := by
  obtain ⟨given, hgiven⟩ :=
    exists_contiguous_of_selection opening.selection_eq opening.format.baseSize
  have hchosen := opening.extraDims_eq
  rw [hgiven] at hchosen
  exact exists_contiguous_of_chooseDims hchosen

/-- A record has room for the layout. -/
theorem recordLength_le : f.layout.recordLength ≤ f.header.recordLength.toNat :=
  checkRecordLength_eq_ok.1 opening.checked

/-- No record is empty, as each holds a core. -/
theorem recordLength_pos : 0 < f.header.recordLength.toNat := by
  have hroom := opening.recordLength_le
  rw [opening.layout_eq] at hroom
  have hcore := RecordLayout.coreSize_le_of_room opening.ofNumber?_eq hroom
  have hpos : 0 < opening.format.coreSize := by
    unfold FormatLayout.coreSize
    cases opening.format.extended <;> decide
  exact Nat.lt_of_lt_of_le hpos hcore

/-- A record has room for what is read of its format and of the dimensions behind it. -/
theorem readLength_le : opening.format.readLength f.extraDims ≤ f.header.recordLength.toNat := by
  obtain ⟨dims, hdims⟩ := opening.exists_extraDims_eq
  have hlayout : f.layout.recordLength = opening.format.readLength f.extraDims := by
    rw [opening.layout_eq, hdims, RecordLayout.recordLength_ofFormat opening.ofNumber?_eq,
      FormatLayout.readLength_contiguous]
  rw [← hlayout]
  exact opening.recordLength_le

end Opening

/-! ## Records of opened files -/

/-- Records of an opened file have the length of their format with the extra dimensions, if the
format has no waveform packet or something stands behind it. The packet itself is not read, so that
without extra dimensions a record needs no more than the bytes in front of it. -/
theorem recordLength_le_of_ofBytes (hopen : ofBytes file settings = .ok f) :
    ∃ format, FormatLayout.ofNumber? f.header.format = some format ∧
      (format.waveform = none ∨ f.extraDims ≠ [] →
        format.recordLength f.extraDims ≤ f.header.recordLength.toNat) ∧
      ∀ packet, format.waveform = some packet → packet ≤ f.header.recordLength.toNat := by
  obtain ⟨opening⟩ := exists_opening hopen
  have hread := opening.readLength_le
  refine ⟨opening.format, opening.ofNumber?_eq, fun hwhole ↦ ?_, fun packet hpacket ↦ ?_⟩
  · rwa [FormatLayout.readLength_eq_recordLength hwhole] at hread
  · have hfixed : opening.format.readLength [] = packet := by
      rw [FormatLayout.readLength, hpacket]
      rfl
    calc packet
        = opening.format.readLength [] := hfixed.symm
      _ ≤ opening.format.readLength f.extraDims :=
          FormatLayout.readLength_nil_le (List.mem_of_getElem? opening.ofNumber?_eq) _
      _ ≤ f.header.recordLength.toNat := hread

/-- A file of version 1.3 with one record of zeros, of format 4. -/
def waveformRecord (length : UInt16) : Bytes :=
  Header.encode
    { Header.blank with
      version := ⟨1, 3⟩
      offsetToPoints := 235
      formatByte := 4
      recordLength := length
      legacyPoints := 1 } ++ List.replicate length.toNat 0

/-- A byte behind a waveform packet of 29 bytes. -/
theorem recordLength_le_of_ofBytes_waveformRecord :
    let settings : Settings := { Settings.standard with extraDims := ["a=uint8"] }
    ∃ f format, ofBytes (waveformRecord 58) settings = .ok f ∧
      FormatLayout.ofNumber? f.header.format = some format ∧ format.waveform = some 28 ∧
      format.recordLength f.extraDims ≤ 58 := by
  intro settings
  have hrun : ((ofBytes (waveformRecord 58) settings).toOption.map fun f ↦
      (f.header.format, f.header.recordLength.toNat, f.extraDims.isEmpty)) =
        some (4, 58, false) := by decide +kernel
  obtain ⟨f, hopen, hf⟩ := Option.map_eq_some_iff.1 hrun
  have hopen := eq_ok_of_toOption hopen
  simp only [Prod.mk.injEq] at hf
  obtain ⟨hnumber, hlength, hdims⟩ := hf
  obtain ⟨format, hformat, hwhole, -⟩ := recordLength_le_of_ofBytes hopen
  rw [hlength] at hwhole
  have hfour : some format = FormatLayout.ofNumber? 4 := by rw [← hformat, hnumber]
  cases hfour
  have hsome : f.extraDims ≠ [] := by
    intro hnil
    rw [hnil] at hdims
    cases hdims
  exact ⟨f, _, hopen, hformat, rfl, hwhole (Or.inr hsome)⟩

/-- Records that end in front of the waveform packet are 29 bytes shorter than their format, and the
file is opened. -/
theorem recordLength_lt_of_ofBytes_waveformRecord :
    ∃ f format, ofBytes (waveformRecord 28) .standard = .ok f ∧
      FormatLayout.ofNumber? f.header.format = some format ∧
      f.header.recordLength.toNat < format.recordLength f.extraDims := by
  have hrun : ((ofBytes (waveformRecord 28) .standard).toOption.map fun f ↦
      (f.header.format, f.header.recordLength.toNat, f.extraDims)) = some (4, 28, []) := by
    decide +kernel
  obtain ⟨f, hopen, hf⟩ := Option.map_eq_some_iff.1 hrun
  simp only [Prod.mk.injEq] at hf
  obtain ⟨hnumber, hlength, hdims⟩ := hf
  refine ⟨f, _, eq_ok_of_toOption hopen, by rw [hnumber]; rfl, ?_⟩
  rw [hlength, hdims]
  decide

end LasFile.OpenFile
