import LasFile.Proofs.Draft.Contents
import LasFile.Proofs.Draft.Opened

/-!
# Finished files opened again

A finished file whose dimensions are named is opened with the standard settings alone: the header
is read back, the walk finds its records, the description gives the dimensions back in their places,
and the layout is that of the settings. Each point read is then the record that was packed.
-/

namespace LasFile

open Draft Outcome

namespace Plan

variable {settings : Settings} {vlrs : List Vlr} (plan : Plan settings vlrs)
variable (created : CreationDate) (points : List Point)

/-! ## Header and records -/

/-- The header of the finished file as it is read. -/
def reread : Header := (plan.finalHeader created points).reread

/-- Where the records in front of the points are found. -/
def entries : List VlrEntry :=
  Catalog.entriesOf .short (plan.finalHeader created points).encode.length plan.records

/-- The description of the named dimensions is found in front of the points. -/
theorem payload_written (hvlrs : ∀ v ∈ vlrs, Catalog.ReadsAsDescription v → v.isExtraBytes = true)
    (tail : Bytes) :
    ∃ data, Descriptor.encodeAll (plan.given.map Descriptor.ofDim) = .ok data ∧
      OpenFile.payload (plan.written created points ++ tail) ⟨plan.entries created points, ()⟩
        Vlr.extraBytesUser Vlr.extraBytesRecord = .ok data :=
  (plan.front created).payload_written points (Catalog.not_readsAsDescription hvlrs) tail

/-! ## Dimensions and layout -/

/-- The names of the dimensions fit their fields. -/
def NamesFit : Prop := ∀ dim ∈ plan.given, dim.name.utf8ByteSize ≤ 32 ∧ '\x00' ∉ dim.name.toList

/-- The dimensions that entries name are single numbers, stored as they are. -/
theorem scalar_of_mem_given {dim : ExtraDim} (h : dim ∈ plan.given) :
    ∃ name scalar, dim = .plain name (.scalar scalar) 0 :=
  forall_mem_of_mapM_eq_ok plan.given_eq (fun _ _ _ ↦ Selection.parseEntry_eq_ok) dim h

theorem plain_of_mem_given {dim : ExtraDim} (h : dim ∈ plan.given) :
    ExtraDim.plain dim.name dim.storage 0 = dim := by
  obtain ⟨name, scalar, rfl⟩ := plan.scalar_of_mem_given h
  rfl

/-- A description says everything about dimensions whose names fit their fields. -/
theorem isDescribable_of_mem_given (hnames : plan.NamesFit) {dim : ExtraDim}
    (h : dim ∈ plan.given) : dim.IsDescribable := by
  obtain ⟨hfit, hnul⟩ := hnames dim h
  obtain ⟨name, scalar, rfl⟩ := plan.scalar_of_mem_given h
  exact ⟨rfl, by simp [ExtraDim.plain], hfit, hnul⟩

/-- Names that fit their fields are found as they were given. -/
theorem map_found_given (hnames : plan.NamesFit) :
    plan.given.map Descriptor.found = plan.given := by
  have hfound : ∀ dim ∈ plan.given, Descriptor.found dim = dim := by
    intro dim hdim
    obtain ⟨hfit, hnul⟩ := hnames dim hdim
    rw [Descriptor.found, FixedText.stored_eq_self hfit hnul, plan.plain_of_mem_given hdim]
  exact (List.map_congr_left hfound).trans (List.map_id' _)

/-- The finished file as it is opened. -/
def opened (tail : Bytes) : OpenFile where
  bytes := plan.written created points ++ tail
  header := plan.reread created points
  catalog := ⟨plan.entries created points, ()⟩
  extraDims := plan.dims
  layout := plan.layout
  ignored := []

variable (hfew : plan.records.length < UInt32.size)

include hfew in
/-- Opening a finished file chooses its dimensions by the description found in it and by the
settings it is opened with. -/
theorem ofBytes_written_eq {reading : Settings} {selection : Selection}
    (hselection : reading.selection false = .ok selection) {tail data : Bytes}
    (hpayload : OpenFile.payload (plan.written created points ++ tail)
      ⟨plan.entries created points, ()⟩ Vlr.extraBytesUser Vlr.extraBytesRecord = .ok data) :
    OpenFile.ofBytes (plan.written created points ++ tail) reading =
      (OpenFile.chooseDims plan.format.baseSize
        (ExtraDim.relocate plan.format.baseSize selection.explicit) data >>= fun dims ↦ do
          let layout := RecordLayout.ofFormat settings.pointFormat settings.scaling dims
          OpenFile.checkRecordLength (plan.reread created points) layout
          let ignored ← reading.ignored
          return { plan.opened created points tail with extraDims := dims, layout, ignored }) :=
  (plan.front created).ofBytes_written_eq points hfew hselection hpayload

include hfew in
/-- A finished file for which the dimensions of its plan are chosen. -/
theorem ofBytes_written_of_chooseDims {reading : Settings} {selection : Selection}
    (hselection : reading.selection false = .ok selection) {ignored : List IgnoreRule}
    (hignored : reading.ignored = .ok ignored) {tail data : Bytes}
    (hpayload : OpenFile.payload (plan.written created points ++ tail)
      ⟨plan.entries created points, ()⟩ Vlr.extraBytesUser Vlr.extraBytesRecord = .ok data)
    (hdims : OpenFile.chooseDims plan.format.baseSize
      (ExtraDim.relocate plan.format.baseSize selection.explicit) data = .ok plan.dims) :
    OpenFile.ofBytes (plan.written created points ++ tail) reading =
      .ok { plan.opened created points tail with ignored := ignored } :=
  (plan.front created).ofBytes_written_of_chooseDims points hfew hselection hignored hpayload hdims

variable (hplace : (plan.front created).PlaceFits)

include hplace in
/-- A finished file is opened with the standard settings. -/
theorem ofBytes_written (hnames : plan.NamesFit) (husers : ∀ v ∈ vlrs, '\x00' ∉ v.userId.toList)
    (tail : Bytes) : OpenFile.ofBytes (plan.written created points ++ tail) .standard =
      .ok (plan.opened created points tail) := by
  have hvlrs : ∀ v ∈ vlrs, Catalog.ReadsAsDescription v → v.isExtraBytes = true :=
    fun v hv ↦ Catalog.isExtraBytes_of_stored (husers v hv)
  exact (plan.front created).ofBytes_written points (plan.length_records_lt hplace)
    (fun _ ↦ plan.isDescribable_of_mem_given hnames) (Catalog.not_readsAsDescription hvlrs) tail

/-! ## Points -/

/-- An opened file states no more points than were accepted. -/
theorem pointCount_opened_le (tail : Bytes) :
    (plan.opened created points tail).pointCount ≤ (plan.accepted points).length :=
  (plan.front created).pointCount_opened_le points tail

include hplace in
/-- The bytes of a record are those that were packed. -/
theorem record_opened {tail : Bytes}
    (hsize : (plan.written created points ++ tail).length < UInt64.size) {i : Nat} {record : Bytes}
    (hrecord : (plan.pointRecords points)[i]? = some record) :
    (plan.opened created points tail).record i = .ok record := by
  have hend := (plan.front created).end_le_length_written points hrecord
  rw [List.length_append] at hsize
  apply (plan.front created).record_opened points hplace tail hrecord
  apply Nat.lt_of_le_of_lt _ hsize
  exact ((Nat.le_add_right _ _).trans hend).trans (Nat.le_add_right _ _)

end Plan

/-- A finished file whose dimensions are named is opened with the standard settings. The dimensions
are those of the settings, placed one behind the other, and every point of the file is read as the
layout of the settings reads the record that was packed for it. The length of the file has to fit
sixty-four bits. -/
theorem Draft.reopened_of_close {memory : Bytes} {created : CreationDate} {settings : Settings}
    {vlrs : List Vlr} {d : Draft} {points : List Point} {bytes : Bytes}
    (hcreate : create memory created settings vlrs = .ok d)
    (hnamed : ∀ entry ∈ settings.extraDims, Text.trim entry ≠ "all")
    (hnames : ∀ entry ∈ settings.extraDims, ∀ dim, Selection.parseEntry entry = .ok dim →
      dim.name.utf8ByteSize ≤ 32 ∧ '\x00' ∉ dim.name.toList)
    (husers : ∀ v ∈ vlrs, '\x00' ∉ v.userId.toList)
    (hplace : d.PlaceFits)
    (hclose : (d.writeAll points).draft.close = .ok bytes) (hsize : bytes.length < UInt64.size) :
    ∃ (plan : Plan settings vlrs) (f : OpenFile),
      settings.selection true = .ok (.only (ExtraDim.contiguous 0 plan.given)) ∧
      settings.recordLayout = .ok plan.layout ∧
      OpenFile.ofBytes bytes .standard = .ok f ∧
      f.extraDims.length = plan.given.length ∧
      (∀ (i : Nat) (dim : ExtraDim), plan.given[i]? = some dim → f.extraDims[i]? =
        some { name := dim.name
               storage := dim.storage
               transform := .identity
               offset := plan.format.baseSize + ExtraDim.totalSize (plan.given.take i) }) ∧
      f.pointCount ≤ (d.writeAll points).accepted.length ∧
      ∀ i < f.pointCount, ∃ p record, (d.writeAll points).accepted[i]? = some p ∧
        plan.layout.encode plan.recordLength p = .ok record ∧
        f.readPoint i .empty = plan.layout.load record .empty := by
  obtain ⟨plan, rfl⟩ := Plan.exists_of_create hcreate hnamed
  rw [plan.close_writeAll_draft, Except.ok.injEq] at hclose
  obtain rfl := hclose
  have hfit : plan.NamesFit := forall_mem_of_mapM_eq_ok plan.given_eq hnames
  have hfront := ((plan.front created).placeFits_draft memory).1 hplace
  have haccepted : ((plan.draft memory created).writeAll points).accepted =
      plan.accepted points := by
    rw [plan.writeAll_draft]
  rw [haccepted]
  refine ⟨plan, plan.opened created points (memory.drop (plan.written created points).length),
    (Selection.parse_eq_ok_of_named hnamed).2 ⟨plan.given, plan.given_eq, rfl⟩,
    Settings.recordLayout_of_named hnamed plan.format_eq plan.given_eq,
    plan.ofBytes_written created points hfront hfit husers _, ?_, fun i dim hdim ↦ ?_,
    plan.pointCount_opened_le created points _, fun i hi ↦ ?_⟩
  · exact ExtraDim.length_contiguous _ _
  · have hplain := plan.plain_of_mem_given (List.mem_of_getElem? hdim)
    have hdims : plan.dims[i]? = _ := ExtraDim.getElem?_contiguous _ _ i
    rw [hdim, ← hplain] at hdims
    exact hdims
  · have hcount := plan.pointCount_opened_le created points
      (memory.drop (plan.written created points).length)
    obtain ⟨p, hp⟩ : ∃ p, (plan.accepted points)[i]? = some p :=
      ⟨_, List.getElem?_eq_getElem (Nat.lt_of_lt_of_le hi hcount)⟩
    obtain ⟨record, hencode, hrecord⟩ := getElem?_recordsOf hp
    refine ⟨p, record, hp, hencode, ?_⟩
    rw [OpenFile.readPoint, if_neg (Nat.not_le.2 hi),
      plan.record_opened created points hfront hsize hrecord]
    rfl

/-- Two dimensions, a record whose user is almost that of the description, and a refused point. -/
theorem Draft.reopened_of_close_twoDims :
    let settings : Settings := { Settings.standard with extraDims := ["a = uint8", "b=double"] }
    let vlrs : List Vlr := [.of "LASF_Spe" 4 "" [1, 2], .of "LASF_Spec" 4 "" [3]]
    let points : List Point := [.set .empty (.user "a") (.unsigned 1),
      .set .empty (.user "a") (.unsigned 300), .set .empty .intensity (.unsigned 9)]
    ∃ (d : Draft) (bytes : Bytes) (plan : Plan settings vlrs) (f : OpenFile),
      create (List.replicate 700 255) ⟨0, 0⟩ settings vlrs = .ok d ∧
      (d.writeAll points).draft.close = .ok bytes ∧ bytes.length = 807 ∧
      OpenFile.ofBytes bytes .standard = .ok f ∧ f.pointCount = 2 ∧
      ∀ i < 2, ∃ p record, (d.writeAll points).accepted[i]? = some p ∧
        plan.layout.encode plan.recordLength p = .ok record ∧
        f.readPoint i .empty = plan.layout.load record .empty := by
  intro settings vlrs points
  have hrun : (do
      let d ← create (List.replicate 700 255) ⟨0, 0⟩ settings vlrs
      let bytes ← (d.writeAll points).draft.close
      let f ← OpenFile.ofBytes bytes .standard
      return (decide d.PlaceFits, bytes.length, f.pointCount) : Except Error _).toOption =
      some (true, 807, 2) := by decide +kernel
  have hsteps := eq_ok_of_toOption hrun
  simp only [bind_eq_ok, pure_eq_ok, Prod.mk.injEq, decide_eq_true_eq] at hsteps
  obtain ⟨d, hcreate, bytes, hclose, opened, hopened, hplace, hlength, hcount⟩ := hsteps
  have hnamed : ∀ entry ∈ settings.extraDims, Text.trim entry ≠ "all" := by decide +kernel
  have hnames : ∀ entry ∈ settings.extraDims, ∀ dim, Selection.parseEntry entry = .ok dim →
      dim.name.utf8ByteSize ≤ 32 ∧ '\x00' ∉ dim.name.toList := by
    have hall : ∀ entry ∈ settings.extraDims, (Selection.parseEntry entry).toOption.all
        (fun dim ↦ decide (dim.name.utf8ByteSize ≤ 32 ∧ '\x00' ∉ dim.name.toList)) = true := by
      decide +kernel
    intro entry hentry dim hdim
    have hfits := hall entry hentry
    rw [hdim] at hfits
    exact of_decide_eq_true hfits
  have husers : ∀ v ∈ vlrs, '\x00' ∉ v.userId.toList := by decide +kernel
  obtain ⟨plan, f, -, -, hopen, -, -, -, hpoints⟩ := reopened_of_close hcreate hnamed hnames husers
    hplace hclose (by rw [hlength]; decide)
  obtain rfl : opened = f := Except.ok.inj (hopened.symm.trans hopen)
  rw [hcount] at hpoints
  exact ⟨d, bytes, plan, opened, hcreate, hclose, hlength, hopened, hcount, hpoints⟩

end LasFile
