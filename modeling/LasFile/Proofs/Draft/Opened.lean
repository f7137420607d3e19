import LasFile.Proofs.Draft.Front
import LasFile.Proofs.ExtraDim.Description
import LasFile.Proofs.OpenFile.Opening
import LasFile.Proofs.Record.ExtraField
import LasFile.Proofs.Vlr.Lookup

/-!
# Opening what was written behind a front

A finished file is read back part by part: the header as it was written last, the records where the
walk finds them, and the dimensions as the description gives them back. With the dimensions of the
front the layout is that of the writer, and every record is found with the bytes that were packed.
-/

namespace LasFile

open Draft Outcome

namespace Front

variable {base : Header} {others : List Vlr} {given : List ExtraDim}
variable (front : Front base others given) (points : List Point)

/-! ## The header -/

theorem formatByte_finalHeader : (front.finalHeader points).formatByte = base.formatByte :=
  Header.apply_withTally Header.formatByte (fun _ _ _ _ _ _ _ ↦ rfl) _ _

theorem scaling_finalHeader : (front.finalHeader points).scaling = base.scaling :=
  Header.apply_withTally Header.scaling (fun _ _ _ _ _ _ _ ↦ rfl) _ _

theorem evlrCount_finalHeader : (front.finalHeader points).evlrCount = 0 :=
  (Header.apply_withTally Header.evlrCount (fun _ _ _ _ _ _ _ ↦ rfl) _ _).trans
    front.isNew.evlrCount

theorem format_reread : (front.reread points).format = base.formatByte ∧
    (front.reread points).isCompressed = false := by
  have hbyte : (front.reread points).formatByte = base.formatByte := by
    rw [reread, Header.formatByte_reread, formatByte_finalHeader]
  have hformat := front.format_eq
  rw [← hbyte] at hformat ⊢
  exact Header.format_eq_formatByte hformat

theorem formatOf_reread : OpenFile.formatOf (front.reread points) = .ok front.format := by
  obtain ⟨hformat, hcompressed⟩ := front.format_reread points
  refine OpenFile.formatOf_eq_ok.2 ⟨hcompressed, ?_⟩
  rw [hformat, front.format_eq]

/-! ## The records -/

theorem extendedCount_reread : OpenFile.extendedCount (front.reread points) = 0 := by
  unfold OpenFile.extendedCount reread
  rw [Header.evlrCount_reread, evlrCount_finalHeader, ite_self]
  exact ite_self 0

/-- Where the records in front of the points are found. -/
def entries : List VlrEntry :=
  Catalog.entriesOf .short (front.finalHeader points).encode.length front.records

/-- The records stand behind the header. -/
theorem holdsAt_written (tail : Bytes) : (front.written points ++ tail).HoldsAt
    (front.finalHeader points).encode.length front.blocks.flatten := by
  rw [written, List.append_assoc]
  exact Bytes.holdsAt_append _ _ _

/-- The counted records stand behind the header. -/
theorem exists_counted (tail : Bytes) : ∃ blocks,
    front.counted.mapM (·.encode .short) = .ok blocks ∧
      (front.written points ++ tail).HoldsAt (front.finalHeader points).encode.length
        blocks.flatten := by
  have hall := front.blocks_eq
  have hplace := front.holdsAt_written points tail
  have hsplit : others ++ front.description =
      front.counted ++ front.records.drop (front.records.length % UInt32.size) :=
    (List.take_append_drop _ _).symm
  rw [hsplit] at hall
  obtain ⟨blocks, rest, hblocks, -, hboth⟩ := mapM_append_eq_ok.1 hall
  rw [hboth, List.flatten_append] at hplace
  exact ⟨blocks, hblocks, hplace.append.1⟩

/-- The header and the counted records end before places run out. -/
theorem length_counted_lt : (front.finalHeader points).encode.length +
    Vlr.totalSize .short front.counted < UInt64.size := by
  obtain ⟨blocks, hblocks, -⟩ := front.exists_counted points []
  have hheader : base.headerSize.toNat < UInt16.size := UInt16.toNat_lt _
  have hcount : (front.finalHeader points).vlrCount.toNat < UInt32.size := UInt32.toNat_lt _
  have hsize := Vlr.totalSize_le_of_encode hblocks
  have hwidth : VlrKind.headerSize .short = 54 := rfl
  rw [hwidth] at hsize
  rw [front.toNat_vlrCount] at hcount
  rw [front.length_finalHeader]
  simp only [UInt16.size, UInt32.size, UInt64.size] at hheader hcount ⊢
  omega

/-- The catalog lists the counted records. -/
theorem catalogOf_counted (tail : Bytes) :
    OpenFile.catalogOf (front.written points ++ tail) (front.reread points) = .ok
      ⟨Catalog.entriesOf .short (front.finalHeader points).encode.length front.counted, ()⟩ := by
  obtain ⟨blocks, hblocks, hplace⟩ := front.exists_counted points tail
  have hlength := front.length_finalHeader points
  have hsize : (front.reread points).headerSize.toNat =
      (front.finalHeader points).encode.length := by
    rw [reread, Header.headerSize_reread, version_finalHeader, hlength, front.isNew.headerSize]
  have hcount : (front.reread points).vlrCount.toNat = front.counted.length := by
    rw [reread, Header.vlrCount_reread, front.toNat_vlrCount]
  obtain ⟨_, hwalk⟩ := Catalog.walk_of_serves (front.written points ++ tail).serves_rangeReader
    hblocks hplace (front.length_counted_lt points) ()
  simp only [OpenFile.catalogOf, Catalog.load, Catalog.scan, hsize, hcount, extendedCount_reread,
    Stateful.bind_of_ok hwalk, Catalog.walk, pure_bind, Stateful.pure_apply, List.append_nil]

variable (hfew : front.records.length < UInt32.size)

include hfew in
theorem catalogOf_written (tail : Bytes) :
    OpenFile.catalogOf (front.written points ++ tail) (front.reread points) =
      .ok ⟨front.entries points, ()⟩ := by
  rw [catalogOf_counted, front.counted_eq hfew, entries]

/-- The description of the dimensions is found in front of the points. -/
theorem payload_written (hothers : ∀ v ∈ others, ¬Catalog.ReadsAsDescription v) (tail : Bytes) :
    ∃ data, Descriptor.encodeAll (given.map Descriptor.ofDim) = .ok data ∧
      OpenFile.payload (front.written points ++ tail) ⟨front.entries points, ()⟩
        Vlr.extraBytesUser Vlr.extraBytesRecord = .ok data := by
  have hentries := Catalog.forall₂_locates front.blocks_eq (front.holdsAt_written points tail)
  have hpayload := Catalog.payload_of_locates hentries Vlr.extraBytesUser Vlr.extraBytesRecord
  rcases front.description_cases with ⟨hgiven, hnone⟩ | ⟨data, hdata, hone⟩
  · rw [hnone, List.append_nil, Catalog.lookup_eq_none hothers] at hpayload
    refine ⟨[], by rw [hgiven]; rfl, ?_⟩
    rw [entries, records, hnone, List.append_nil]
    exact hpayload
  · rw [hone, Catalog.lookup_append_description hothers] at hpayload
    refine ⟨data, hdata, ?_⟩
    rw [entries, records, hone]
    exact hpayload

/-! ## Dimensions and layout -/

/-- Where the settings state no dimensions, those that the description gives back are chosen. -/
theorem chooseDims_found {start : Int} {data : Bytes}
    (hdata : Descriptor.encodeAll (given.map Descriptor.ofDim) = .ok data) :
    OpenFile.chooseDims start [] data =
      .ok (ExtraDim.contiguous start (given.map Descriptor.found)) := by
  cases data with
  | nil =>
    obtain rfl : given = [] := Descriptor.eq_nil_of_encodeAll_eq_nil hdata
    rfl
  | cons byte rest =>
    have hfound := Descriptor.toExtraDims_encodeAll hdata start
    simp only [OpenFile.chooseDims, List.isEmpty_cons, hfound]
    rfl

/-- Dimensions that a description says everything about are found as they were given. -/
theorem chooseDims_given (hgiven : ∀ dim ∈ given, dim.IsDescribable) {data : Bytes}
    (hdata : Descriptor.encodeAll (given.map Descriptor.ofDim) = .ok data) :
    OpenFile.chooseDims front.format.baseSize [] data = .ok front.dims := by
  have hplaces : ∀ dim ∈ given, ∃ place, Descriptor.found dim = { dim with offset := place } :=
    fun dim hdim ↦ ⟨0, (hgiven dim hdim).found_eq⟩
  rw [chooseDims_found hdata, ExtraDim.contiguous_map hplaces, dims]

theorem checkRecordLength_reread :
    OpenFile.checkRecordLength (front.reread points) front.layout = .ok () := by
  have hlayout : front.layout.recordLength ≤ front.recordLength :=
    RecordLayout.recordLength_ofFormat_le front.format_eq base.scaling given
  have hlength : (front.reread points).recordLength.toNat = front.recordLength := by
    rw [reread, Header.recordLength_reread, toNat_recordLength]
  apply OpenFile.checkRecordLength_eq_ok.2
  rw [hlength]
  exact hlayout

/-- The finished file as it is opened. -/
def opened (tail : Bytes) : OpenFile where
  bytes := front.written points ++ tail
  header := front.reread points
  catalog := ⟨front.entries points, ()⟩
  extraDims := front.dims
  layout := front.layout
  ignored := []

include hfew in
/-- Opening a finished file chooses its dimensions by the description found in it and by the
settings it is opened with. -/
theorem ofBytes_written_eq {reading : Settings} {selection : Selection}
    (hselection : reading.selection false = .ok selection) {tail data : Bytes}
    (hpayload : OpenFile.payload (front.written points ++ tail) ⟨front.entries points, ()⟩
      Vlr.extraBytesUser Vlr.extraBytesRecord = .ok data) :
    OpenFile.ofBytes (front.written points ++ tail) reading =
      (OpenFile.chooseDims front.format.baseSize
        (ExtraDim.relocate front.format.baseSize selection.explicit) data >>= fun dims ↦ do
          let layout := RecordLayout.ofFormat base.formatByte base.scaling dims
          OpenFile.checkRecordLength (front.reread points) layout
          let ignored ← reading.ignored
          return { front.opened points tail with extraDims := dims, layout, ignored }) := by
  have hscaling : (front.reread points).scaling = base.scaling := by
    rw [reread, Header.scaling_reread, scaling_finalHeader]
  simp only [OpenFile.ofBytes, Bind.bind, Except.bind, decode_written, formatOf_reread,
    front.catalogOf_written points hfew, hselection, hpayload, hscaling,
    (front.format_reread points).1]
  rfl

include hfew in
/-- A finished file for which the dimensions of its front are chosen. -/
theorem ofBytes_written_of_chooseDims {reading : Settings} {selection : Selection}
    (hselection : reading.selection false = .ok selection) {ignored : List IgnoreRule}
    (hignored : reading.ignored = .ok ignored) {tail data : Bytes}
    (hpayload : OpenFile.payload (front.written points ++ tail) ⟨front.entries points, ()⟩
      Vlr.extraBytesUser Vlr.extraBytesRecord = .ok data)
    (hdims : OpenFile.chooseDims front.format.baseSize
      (ExtraDim.relocate front.format.baseSize selection.explicit) data = .ok front.dims) :
    OpenFile.ofBytes (front.written points ++ tail) reading =
      .ok { front.opened points tail with ignored := ignored } := by
  have hcheck : OpenFile.checkRecordLength (front.reread points)
      (.ofFormat base.formatByte base.scaling front.dims) = .ok () :=
    front.checkRecordLength_reread points
  rw [front.ofBytes_written_eq points hfew hselection hpayload, hdims]
  simp only [Bind.bind, Except.bind, hcheck, hignored]
  rfl

include hfew in
/-- A finished file is opened with the standard settings. -/
theorem ofBytes_written (hgiven : ∀ dim ∈ given, dim.IsDescribable)
    (hothers : ∀ v ∈ others, ¬Catalog.ReadsAsDescription v) (tail : Bytes) :
    OpenFile.ofBytes (front.written points ++ tail) .standard =
      .ok (front.opened points tail) := by
  obtain ⟨data, hdata, hpayload⟩ := front.payload_written points hothers tail
  have hselection : Settings.standard.selection false = .ok (.only []) := rfl
  have hignored : Settings.standard.ignored = .ok [] := rfl
  exact front.ofBytes_written_of_chooseDims points hfew hselection hignored hpayload
    (front.chooseDims_given hgiven hdata)

/-! ## Points -/

/-- An opened file states no more points than were accepted. -/
theorem pointCount_opened_le (tail : Bytes) :
    (front.opened points tail).pointCount ≤ (front.accepted points).length := by
  have hcount := front.header.pointCount_withTally_le (.ofPoints (front.accepted points))
  rw [Tally.count_ofPoints] at hcount
  rwa [OpenFile.pointCount, opened, reread, Header.pointCount_reread]

/-- A record lies within the file. -/
theorem end_le_length_written {i : Nat} {record : Bytes}
    (hrecord : (front.pointRecords points)[i]? = some record) :
    i * front.recordLength + (base.headerSize.toNat + Vlr.totalSize .short front.records) +
      front.recordLength ≤ (front.written points).length := by
  have hplaces : (i + 1) * front.recordLength ≤
      (front.pointRecords points).length * front.recordLength :=
    Nat.mul_le_mul_right _ (List.getElem?_eq_some_iff.1 hrecord).1
  rw [Nat.succ_mul, ← Bytes.length_flatten fun r ↦ front.length_of_mem_pointRecords] at hplaces
  rw [written, List.length_append, List.length_append, length_finalHeader, length_blocks]
  omega

/-- The bytes of a record are those that were packed, as long as its place has sixty-four bits. -/
theorem record_opened (hplace : front.PlaceFits) (tail : Bytes) {i : Nat} {record : Bytes}
    (hrecord : (front.pointRecords points)[i]? = some record)
    (hstart : i * front.recordLength + (base.headerSize.toNat +
      Vlr.totalSize .short front.records) < UInt64.size) :
    (front.opened points tail).record i = .ok record := by
  have hlengths : ∀ r ∈ front.pointRecords points, r.length = front.recordLength :=
    fun r ↦ front.length_of_mem_pointRecords
  have hlength : (front.reread points).recordLength.toNat = front.recordLength := by
    rw [reread, Header.recordLength_reread, toNat_recordLength]
  have hsizes : ((front.finalHeader points).encode ++ front.blocks.flatten).length =
      base.headerSize.toNat + Vlr.totalSize .short front.records := by
    rw [List.length_append, length_finalHeader, length_blocks]
  have hplaces : (front.reread points).offsetToPoints.toNat =
      base.headerSize.toNat + Vlr.totalSize .short front.records := by
    rw [reread, Header.offsetToPoints_reread, front.toNat_offsetToPoints hplace,
      ← List.length_append, hsizes]
  have hslice := Bytes.slice_flatten hlengths hrecord
    ((front.finalHeader points).encode ++ front.blocks.flatten) tail
  have hend := front.end_le_length_written points hrecord
  have hwithin : i * front.recordLength + (base.headerSize.toNat +
      Vlr.totalSize .short front.records) + front.recordLength ≤
        (front.written points ++ tail).length := by
    rw [List.length_append]
    exact hend.trans (Nat.le_add_right _ _)
  rw [hsizes] at hslice
  simp only [OpenFile.record, opened, hlength, hplaces]
  rw [if_pos hstart, Bytes.range_of_le hwithin]
  exact congrArg Except.ok hslice

/-- A point is read as the layout reads the record that was packed for it, and dimensions of
different names have the values of what was packed for them. -/
theorem readPoint_opened (hdistinct : (given.map ExtraDim.id).Nodup)
    (hplace : front.PlaceFits) (tail : Bytes) {i : Nat}
    (hi : i < (front.opened points tail).pointCount) {p : Point}
    (hp : (front.accepted points)[i]? = some p)
    (hstart : i * front.recordLength + (base.headerSize.toNat +
      Vlr.totalSize .short front.records) < UInt64.size) (q : Point) :
    ∃ r, (front.opened points tail).readPoint i q = .ok true r ∧
      ∀ dim ∈ given, ∃ part, dim.encode p = .ok part ∧ r.get? dim.id = some (dim.decode part) := by
  obtain ⟨record, hencode, hrecord⟩ := getElem?_recordsOf hp
  have hroom : front.layout.recordLength ≤ record.length := by
    rw [front.layout.length_encode front.recordLength p record hencode]
    exact RecordLayout.recordLength_ofFormat_le front.format_eq base.scaling given
  refine ⟨q.setAll (front.layout.fields record), ?_, fun dim hdim ↦ ?_⟩
  · rw [OpenFile.readPoint, if_neg (Nat.not_le.2 hi),
      front.record_opened points hplace tail hrecord hstart]
    calc front.layout.load record q
        = .ok front.layout.isConfigured (q.setAll (front.layout.fields record)) :=
          RecordLayout.load_of_room hroom q
      _ = .ok true (q.setAll (front.layout.fields record)) := by
          rw [layout, RecordLayout.isConfigured_ofFormat front.format_eq]
  · -- A place changes neither what is packed for a dimension nor what that stands for.
    obtain ⟨place, hplaced⟩ := ExtraDim.exists_mem_contiguous hdim front.format.baseSize
    obtain ⟨part, hpart, hread⟩ :=
      RecordLayout.extraDim_of_encode front.format_eq hdistinct hplaced hencode
    exact ⟨part, hpart, hread q⟩

end Front

end LasFile
