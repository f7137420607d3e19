import LasFile.Proofs.Draft.Reopened
import LasFile.Proofs.OpenFile.Vlrs

/-!
# Records kept by a file

A record read from a finished file is what its three parts give back: the user and the number from
the walk, the description in front of the payload, and the payload itself. The reserved field of a
record is written and never read, so that a record comes back with a zero there.
-/

namespace LasFile

open Draft Outcome

/-! ## Records read back -/

namespace Vlr

/-- A record as it is read after it was written. -/
def kept (v : Vlr) : Vlr :=
  .of (FixedText.stored userIdWidth v.userId) v.recordId
    (FixedText.stored descriptionWidth v.description) v.data

/-- The texts of a record fit their fields, and it states the length of its payload. -/
structure Fits (v : Vlr) : Prop where
  userId : v.userId.utf8ByteSize ≤ userIdWidth ∧ '\x00' ∉ v.userId.toList
  description : v.description.utf8ByteSize ≤ descriptionWidth ∧ '\x00' ∉ v.description.toList
  statedLength : v.statedLength.toNat = v.data.length

/-- The record with a zero in its reserved field. -/
def cleared (v : Vlr) : Vlr := { v with reserved := 0 }

theorem cleared_eq_self_iff {v : Vlr} : v.cleared = v ↔ v.reserved = 0 := by
  constructor
  · intro h
    rw [← h]
    rfl
  · intro h
    rw [cleared, ← h]

/-- What fits is kept except for the reserved field. -/
theorem Fits.kept_eq {v : Vlr} (h : v.Fits) : v.kept = v.cleared := by
  have hlength : v.statedLength = .ofNat v.data.length := by
    rw [← h.statedLength, UInt64.ofNat_toNat]
  rw [kept, cleared, of, FixedText.stored_eq_self h.userId.1 h.userId.2,
    FixedText.stored_eq_self h.description.1 h.description.2, ← hlength]

/-- A record whose texts fit is kept. -/
theorem kept_of {userId description : String}
    (huser : FixedText.stored userIdWidth userId = userId)
    (hdescription : FixedText.stored descriptionWidth description = description)
    (recordId : UInt16) (data : Bytes) :
    (of userId recordId description data).kept = of userId recordId description data := by
  calc (of userId recordId description data).kept
      = of (FixedText.stored userIdWidth userId) recordId
          (FixedText.stored descriptionWidth description) data := rfl
    _ = of userId recordId description data := by rw [huser, hdescription]

/-- The description is the end of a record's header. -/
theorem holdsAt_description {v : Vlr} {kind : VlrKind} {part file : Bytes} {position : Nat}
    (hpart : v.encode kind = .ok part) (hplace : file.HoldsAt position part) :
    file.HoldsAt (position + kind.headerSize - descriptionWidth)
      (FixedText.encode descriptionWidth v.description) := by
  obtain ⟨front, hfront⟩ : ∃ front,
      v.headerItems kind = front ++ [.text v.description descriptionWidth] :=
    ⟨(v.headerItems kind).dropLast, rfl⟩
  have hheader : Item.encodeAll .little (v.headerItems kind) =
      Item.encodeAll .little front ++ FixedText.encode descriptionWidth v.description := by
    rw [hfront, Item.encodeAll_append, Item.encodeAll_cons, Item.encodeAll_nil, List.append_nil,
      Item.encode]
  have hlength := length_headerItems v kind
  rw [hheader, List.length_append, FixedText.length_encode] at hlength
  obtain ⟨-, rfl⟩ := encode_eq_ok.1 hpart
  rw [hheader] at hplace
  have hdescription := hplace.append.1.append.2
  have hposition : position + (Item.encodeAll .little front).length =
      position + kind.headerSize - descriptionWidth := by omega
  rwa [hposition] at hdescription

end Vlr

namespace Catalog

/-- Records written one after the other are read back in order. -/
theorem map_record_entriesOf {file : Bytes} {kind : VlrKind} {vlrs : List Vlr}
    {blocks : List Bytes} (hblocks : vlrs.mapM (·.encode kind) = .ok blocks) {position : Nat}
    (hplace : file.HoldsAt position blocks.flatten) :
    (entriesOf kind position vlrs).map (·.record file) = vlrs.map Vlr.kept := by
  induction vlrs generalizing blocks position with
  | nil => rfl
  | cons v vs ih =>
    obtain ⟨part, parts, hpart, hparts, rfl⟩ := mapM_cons_eq_ok.1 hblocks
    obtain ⟨-, hsplit⟩ := Vlr.encode_eq_ok.1 hpart
    rw [List.flatten_cons] at hplace
    obtain ⟨hfirst, hothers⟩ := hplace.append
    rw [Vlr.length_encode hpart] at hothers
    have hdescription := Vlr.holdsAt_description hpart hfirst
    rw [hsplit] at hfirst
    have hdata := hfirst.append.2
    rw [Vlr.length_headerItems] at hdata
    rw [Bytes.HoldsAt, FixedText.length_encode] at hdescription
    rw [Bytes.HoldsAt] at hdata
    rw [entriesOf, List.map_cons, List.map_cons, ih hparts hothers]
    simp only [VlrEntry.record, hdescription, hdata, FixedText.decode_encode, Vlr.kept]

/-- The payloads of written records lie in the file. -/
theorem within_entriesOf {file : Bytes} {kind : VlrKind} {vlrs : List Vlr} {blocks : List Bytes}
    (hblocks : vlrs.mapM (·.encode kind) = .ok blocks) {position : Nat}
    (hplace : file.HoldsAt position blocks.flatten) :
    ∀ entry ∈ entriesOf kind position vlrs, entry.Within file := by
  have hlocates := (forall₂_locates hblocks hplace).flip
  exact ((List.forall₂_and_left _ _).1 (hlocates.imp fun _ _ h ↦ ⟨h.within, h⟩)).1

end Catalog

/-! ## Records of finished files -/

namespace Front

variable {base : Header} {others : List Vlr} {given : List ExtraDim}
variable (front : Front base others given) (points : List Point)

/-- The description is kept as it was written. -/
theorem map_kept_description : front.description.map Vlr.kept = front.description := by
  rcases front.description_cases with ⟨-, hnone⟩ | ⟨data, -, hone⟩
  · rw [hnone, List.map_nil]
  · rw [hone, List.map_singleton, Vlr.kept_of (by decide) (by decide)]

/-- Dimensions are given back with their storage. -/
theorem totalSize_found (dims : List ExtraDim) :
    ExtraDim.totalSize (dims.map Descriptor.found) = ExtraDim.totalSize dims := by
  induction dims with
  | nil => rfl
  | cons dim dims ih =>
    rw [List.map_cons, ExtraDim.totalSize, ExtraDim.totalSize, ih]
    rfl

/-- Dimensions are chosen for a finished file whether or not their description is counted, and they
take no more bytes than the given ones. -/
theorem exists_chooseDims (hothers : ∀ v ∈ others, ¬Catalog.ReadsAsDescription v) (tail : Bytes) :
    ∃ data dims, OpenFile.payload (front.written points ++ tail)
        ⟨Catalog.entriesOf .short (front.finalHeader points).encode.length front.counted, ()⟩
        Vlr.extraBytesUser Vlr.extraBytesRecord = .ok data ∧
      OpenFile.chooseDims front.format.baseSize [] data =
        .ok (ExtraDim.contiguous front.format.baseSize dims) ∧
      ExtraDim.totalSize dims ≤ ExtraDim.totalSize given := by
  obtain ⟨blocks, hblocks, hplace⟩ := front.exists_counted points tail
  have hpayload := Catalog.payload_of_locates (Catalog.forall₂_locates hblocks hplace)
    Vlr.extraBytesUser Vlr.extraBytesRecord
  cases hfound : Catalog.lookup front.counted Vlr.extraBytesUser Vlr.extraBytesRecord with
  | none =>
    rw [hfound] at hpayload
    exact ⟨_, [], hpayload, rfl, Nat.zero_le _⟩
  | some v =>
    rw [hfound] at hpayload
    obtain ⟨hcounted, hreads⟩ := Catalog.readsAsDescription_of_lookup hfound
    have hmem : v ∈ others ++ front.description := List.mem_of_mem_take hcounted
    have hdescribes : v ∈ front.description :=
      (List.mem_append.1 hmem).resolve_left fun hother ↦ hothers v hother hreads
    rcases front.description_cases with ⟨-, hnone⟩ | ⟨data, hdata, hone⟩
    · rw [hnone] at hdescribes
      cases hdescribes
    · rw [hone] at hdescribes
      obtain rfl := List.mem_singleton.1 hdescribes
      exact ⟨data, _, hpayload, chooseDims_found hdata, Nat.le_of_eq (totalSize_found given)⟩

/-- A finished file is opened with the standard settings, whatever became of the names of its
dimensions. -/
theorem exists_ofBytes_written (hothers : ∀ v ∈ others, ¬Catalog.ReadsAsDescription v)
    (tail : Bytes) : ∃ f, OpenFile.ofBytes (front.written points ++ tail) .standard = .ok f := by
  obtain ⟨data, dims, hpayload, hdims, hsize⟩ := front.exists_chooseDims points hothers tail
  have hselection : Settings.standard.selection false = .ok (.only []) := rfl
  have hignored : Settings.standard.ignored = .ok [] := rfl
  have hscaling : (front.reread points).scaling = base.scaling := by
    rw [reread, Header.scaling_reread, scaling_finalHeader]
  have hlength : (front.reread points).recordLength.toNat = front.recordLength := by
    rw [reread, Header.recordLength_reread, toNat_recordLength]
  have hcheck : OpenFile.checkRecordLength (front.reread points) (.ofFormat base.formatByte
      base.scaling (ExtraDim.contiguous front.format.baseSize dims)) = .ok () := by
    apply OpenFile.checkRecordLength_eq_ok.2
    calc (RecordLayout.ofFormat base.formatByte base.scaling
          (ExtraDim.contiguous front.format.baseSize dims)).recordLength
        ≤ front.format.recordLength dims :=
          RecordLayout.recordLength_ofFormat_le front.format_eq base.scaling dims
      _ ≤ front.recordLength := Nat.add_le_add_left hsize _
      _ = (front.reread points).recordLength.toNat := hlength.symm
  have hformat : (front.reread points).format = base.formatByte := (front.format_reread points).1
  have hstated : ExtraDim.relocate front.format.baseSize (Selection.only []).explicit = [] := rfl
  simp only [OpenFile.ofBytes, Bind.bind, Except.bind, decode_written, formatOf_reread,
    catalogOf_counted, hselection, hpayload, hstated, hdims, hscaling, hformat, hcheck, hignored]
  exact ⟨_, rfl⟩

/-- Opened without ignored records, a finished file gives the counted ones. -/
theorem vlrs_written {tail : Bytes} {reading : Settings} {f : OpenFile}
    (hplain : reading.ignoreVlrs = [])
    (hopen : OpenFile.ofBytes (front.written points ++ tail) reading = .ok f) :
    f.vlrs = .ok (front.counted.map Vlr.kept) := by
  obtain ⟨opening⟩ := OpenFile.exists_opening hopen
  obtain ⟨blocks, hblocks, hplace⟩ := front.exists_counted points tail
  have hheader : f.header = front.reread points :=
    Except.ok.inj (opening.header_eq.symm.trans (front.decode_written points tail))
  have hcatalog := opening.catalog_eq
  rw [hheader, front.catalogOf_counted points tail] at hcatalog
  have hentries := congrArg Catalog.entries (Except.ok.inj hcatalog)
  have hnone : f.ignored = [] := by
    have hignored := opening.ignored_eq
    rw [Settings.ignored, hplain] at hignored
    exact (Except.ok.inj hignored).symm
  have hwithin : ∀ entry ∈ f.catalog.entries, entry.Within (front.written points ++ tail) := by
    rw [← hentries]
    exact Catalog.within_entriesOf hblocks hplace
  rw [opening.vlrs_of_within hwithin, hnone, ← hentries,
    Catalog.map_record_entriesOf hblocks hplace]
  simp

end Front

/-- The records of a finished file whose dimensions are named, for every memory, every run and all
given records whose texts fit their fields, none of them a description of dimensions. The file opens
with the standard settings, and opened with any settings that ignore nothing it gives the records in
order and behind them the description of the dimensions, if there are any. Of each record the
reserved field is lost, so that the records are those given exactly if it was zero in all of them.
More records than the header can count are cut off. -/
theorem Draft.vlrs_of_close {memory : Bytes} {created : CreationDate} {settings : Settings}
    {vlrs : List Vlr} {d : Draft} {points : List Point} {bytes : Bytes}
    (hcreate : create memory created settings vlrs = .ok d)
    (hnamed : ∀ entry ∈ settings.extraDims, Text.trim entry ≠ "all")
    (hfit : ∀ v ∈ vlrs, v.Fits) (hothers : ∀ v ∈ vlrs, v.isExtraBytes = false)
    (hclose : (d.writeAll points).draft.close = .ok bytes) :
    ∃ dims description, settings.selection true = .ok (.only dims) ∧
      dimRecords dims = .ok description ∧
      (∃ f, OpenFile.ofBytes bytes .standard = .ok f) ∧
      ∀ (reading : Settings) (f : OpenFile), reading.ignoreVlrs = [] →
        OpenFile.ofBytes bytes reading = .ok f →
        f.vlrs = .ok ((vlrs.map Vlr.cleared ++ description).take
          ((vlrs.length + description.length) % UInt32.size)) ∧
        (vlrs.length + description.length < UInt32.size →
          (f.vlrs = .ok (vlrs ++ description) ↔ ∀ v ∈ vlrs, v.reserved = 0)) := by
  obtain ⟨plan, rfl⟩ := Plan.exists_of_create hcreate hnamed
  rw [plan.close_writeAll_draft, Except.ok.injEq] at hclose
  obtain rfl := hclose
  have hselection : settings.selection true = .ok (.only (ExtraDim.contiguous 0 plan.given)) :=
    (Selection.parse_eq_ok_of_named hnamed).2 ⟨plan.given, plan.given_eq, rfl⟩
  have hdescription : dimRecords (ExtraDim.contiguous 0 plan.given) = .ok plan.description := by
    rw [Front.dimRecords_contiguous]
    exact plan.description_eq
  have hrecords : (plan.front created).records = vlrs ++ plan.description := by
    have hall : vlrs.filter (fun v ↦ !v.isExtraBytes) = vlrs := by
      apply List.filter_eq_self.2
      intro v hv
      rw [hothers v hv]
      rfl
    calc (plan.front created).records
        = vlrs.filter (fun v ↦ !v.isExtraBytes) ++ plan.description := rfl
      _ = vlrs ++ plan.description := by rw [hall]
  have hreads : ∀ v ∈ vlrs.filter fun v ↦ !v.isExtraBytes, ¬Catalog.ReadsAsDescription v := by
    apply Catalog.not_readsAsDescription
    intro v hv
    exact Catalog.isExtraBytes_of_stored (hfit v hv).userId.2
  have hkept : (vlrs ++ plan.description).map Vlr.kept =
      vlrs.map Vlr.cleared ++ plan.description := by
    have hlast : plan.description.map Vlr.kept = plan.description :=
      (plan.front created).map_kept_description
    rw [List.map_append, hlast, List.map_congr_left fun v hv ↦ (hfit v hv).kept_eq]
  refine ⟨_, plan.description, hselection, hdescription,
    (plan.front created).exists_ofBytes_written points hreads _, fun reading f hplain hopen ↦ ?_⟩
  have hvlrs := (plan.front created).vlrs_written points hplain hopen
  rw [Front.counted, hrecords, List.map_take, hkept, List.length_append] at hvlrs
  refine ⟨hvlrs, fun hfew ↦ ?_⟩
  rw [hvlrs, Nat.mod_eq_of_lt hfew, List.take_of_length_le (by simp), Except.ok.injEq,
    List.append_left_inj]
  calc vlrs.map Vlr.cleared = vlrs
      ↔ vlrs.map Vlr.cleared = vlrs.map id := by rw [List.map_id]
    _ ↔ ∀ v ∈ vlrs, v.cleared = v := List.map_inj_left
    _ ↔ ∀ v ∈ vlrs, v.reserved = 0 := forall₂_congr fun v _ ↦ Vlr.cleared_eq_self_iff

/-- A record with a reserved number, behind which the description of a dimension is put. -/
theorem Draft.vlrs_of_close_reserved :
    let settings : Settings := { Settings.standard with extraDims := ["a=uint8"] }
    let v : Vlr := { Vlr.of "user" 7 "text" [1, 2] with reserved := 43707 }
    ∃ (d : Draft) (bytes : Bytes) (f : OpenFile) (description : List Vlr),
      create [] ⟨0, 0⟩ settings [v] = .ok d ∧ d.close = .ok bytes ∧
      OpenFile.ofBytes bytes .standard = .ok f ∧ description.map (·.isExtraBytes) = [true] ∧
      f.vlrs = .ok (.of "user" 7 "text" [1, 2] :: description) ∧
      f.vlrs ≠ .ok (v :: description) := by
  intro settings v
  have hrun : (do
      let d ← create [] ⟨0, 0⟩ settings [v]
      let bytes ← d.close
      let description ← dimRecords (← settings.selection true).explicit
      return (bytes.length, description.map (·.isExtraBytes)) : Except Error _).toOption =
        some (529, [true]) := by decide +kernel
  have hsteps := eq_ok_of_toOption hrun
  simp only [bind_eq_ok, pure_eq_ok, Prod.mk.injEq] at hsteps
  obtain ⟨d, hcreate, bytes, hclose, selection, hselection, description, hdescription, -,
    hone⟩ := hsteps
  have hnamed : ∀ entry ∈ settings.extraDims, Text.trim entry ≠ "all" := by decide +kernel
  have hfit : ∀ w ∈ [v], w.Fits := by
    intro w hw
    obtain rfl := List.mem_singleton.1 hw
    exact ⟨by decide, by decide, by decide⟩
  have hrunClose : (d.writeAll []).draft.close = .ok bytes := hclose
  obtain ⟨dims, described, hdims, hdescribed, ⟨f, hopen⟩, hread⟩ :=
    vlrs_of_close hcreate hnamed hfit (by decide) hrunClose
  cases hselection.symm.trans hdims
  cases hdescription.symm.trans hdescribed
  obtain ⟨hvlrs, hsame⟩ := hread .standard f rfl hopen
  have hlength : description.length = 1 := by simpa using congrArg List.length hone
  rw [hlength] at hvlrs hsame
  refine ⟨d, bytes, f, description, hcreate, hclose, hopen, hone, ?_, fun heq ↦ ?_⟩
  · rw [hvlrs, List.take_of_length_le (by simp [hlength, UInt32.size])]
    rfl
  · have hzero := (hsame (by decide)).1 heq v List.mem_cons_self
    cases hzero

end LasFile
