import LasFile.Proofs.Byte.Placement
import LasFile.Proofs.OpenFile.Opening

/-!
# Reading points

The points of an opened file are read from records of one length, one behind the other. A record
that ends within the file is read as a whole, and one that does not is not read at all, so that
reading a point either sets the fields of its record or leaves the point as it was. All points
together are cut from one range of the file, and are the points that are read one by one.
-/

namespace LasFile

namespace OpenFile

open Outcome

/-! ## Records -/

/-- Where a record begins. -/
def recordPlace (f : OpenFile) (index : Nat) : Nat :=
  f.header.offsetToPoints.toNat + index * f.header.recordLength.toNat

/-- The bytes of a record that ends within the file. -/
def recordBytes (f : OpenFile) (index : Nat) : Bytes :=
  f.bytes.slice (f.recordPlace index) f.header.recordLength.toNat

/-- A record ends within the file. -/
def HoldsRecord (f : OpenFile) (index : Nat) : Prop := f.recordPlace (index + 1) ≤ f.bytes.length

variable {f : OpenFile} {index : Nat}

theorem recordPlace_succ (f : OpenFile) (index : Nat) :
    f.recordPlace (index + 1) = f.recordPlace index + f.header.recordLength.toNat := by
  rw [recordPlace, recordPlace, Nat.succ_mul, Nat.add_assoc]

theorem record_eq (f : OpenFile) (index : Nat) : f.record index =
    if f.recordPlace index < UInt64.size then
      f.bytes.range (f.recordPlace index) f.header.recordLength.toNat
    else .error (.file (.pointPastEnd index)) := by
  rw [recordPlace, Nat.add_comm]
  rfl

theorem HoldsRecord.mono {last : Nat} (h : f.HoldsRecord last) (hindex : index ≤ last) :
    f.HoldsRecord index := by
  have hplaces : (index + 1) * f.header.recordLength.toNat ≤
      (last + 1) * f.header.recordLength.toNat := Nat.mul_le_mul_right _ (Nat.succ_le_succ hindex)
  exact Nat.le_trans (Nat.add_le_add_left hplaces _) h

theorem HoldsRecord.length_recordBytes (h : f.HoldsRecord index) :
    (f.recordBytes index).length = f.header.recordLength.toNat := by
  apply Bytes.length_slice
  rw [← recordPlace_succ]
  exact h

/-- A record that ends within a file is found, as places in a file have sixty-four bits. -/
theorem HoldsRecord.record_eq_ok (h : f.HoldsRecord index) (hsize : f.bytes.length < UInt64.size) :
    f.record index = .ok (f.recordBytes index) := by
  have hend : f.recordPlace index + f.header.recordLength.toNat ≤ f.bytes.length := by
    rw [← recordPlace_succ]
    exact h
  have hstart : f.recordPlace index < UInt64.size := by omega
  rw [record_eq, if_pos hstart]
  exact Bytes.range_of_le hend

/-- A record that does not end within a file is not found, whatever its place. -/
theorem record_eq_error (h : ¬f.HoldsRecord index) :
    ∃ fault, f.record index = .error (.file fault) := by
  have hend : f.bytes.length < f.recordPlace index + f.header.recordLength.toNat := by
    rw [← recordPlace_succ]
    exact Nat.not_le.1 h
  rw [record_eq]
  split
  · exact ⟨_, Bytes.range_of_lt hend⟩
  · exact ⟨_, rfl⟩

/-! ## One point -/

/-- The fields that a point is given by a record. -/
def recordFields (f : OpenFile) (index : Nat) : List (Dimension × Value) :=
  f.layout.fields (f.recordBytes index)

theorem readPoint_of_pointCount_le (h : f.pointCount ≤ index) (p : Point) :
    f.readPoint index p = .ok false p := by
  rw [readPoint, if_pos h]
  rfl

theorem readPoint_of_not_holdsRecord (hindex : index < f.pointCount) (h : ¬f.HoldsRecord index)
    (p : Point) : ∃ fault, f.readPoint index p = .error (.file fault) p := by
  obtain ⟨fault, hrecord⟩ := record_eq_error h
  refine ⟨fault, ?_⟩
  rw [readPoint, if_neg (Nat.not_le.2 hindex), hrecord]
  rfl

namespace Opening

variable {file : Bytes} {settings : Settings} (opening : Opening file settings f)

include opening

/-- A record of an opened file has room for everything that is read from it. -/
theorem load_recordBytes (h : f.HoldsRecord index) (p : Point) :
    f.layout.load (f.recordBytes index) p = .ok true (p.setAll (f.recordFields index)) := by
  have hroom : f.layout.recordLength ≤ (f.recordBytes index).length := by
    rw [h.length_recordBytes]
    exact opening.recordLength_le
  rw [RecordLayout.load_of_room hroom, opening.isConfigured_layout]
  rfl

theorem decodePoint_recordBytes (h : f.HoldsRecord index) :
    f.decodePoint (f.recordBytes index) = .ok (.setAll .empty (f.recordFields index)) := by
  rw [decodePoint, opening.load_recordBytes h]

variable (hsize : f.bytes.length < UInt64.size)

include hsize

theorem readPoint_of_holdsRecord (hindex : index < f.pointCount) (h : f.HoldsRecord index)
    (p : Point) : f.readPoint index p = .ok true (p.setAll (f.recordFields index)) := by
  rw [readPoint, if_neg (Nat.not_le.2 hindex), h.record_eq_ok hsize]
  exact opening.load_recordBytes h p

/-- A point is read exactly if the file holds its record. -/
theorem readPoint_eq_true_iff (p : Point) :
    (∃ q, f.readPoint index p = .ok true q) ↔ index < f.pointCount ∧ f.HoldsRecord index := by
  constructor
  · rintro ⟨q, hq⟩
    have hindex : index < f.pointCount := by
      by_contra hpast
      rw [readPoint_of_pointCount_le (Nat.not_lt.1 hpast)] at hq
      cases hq
    refine ⟨hindex, ?_⟩
    by_contra hcut
    obtain ⟨fault, hfault⟩ := readPoint_of_not_holdsRecord hindex hcut p
    rw [hfault] at hq
    cases hq
  · rintro ⟨hindex, h⟩
    exact ⟨_, opening.readPoint_of_holdsRecord hsize hindex h p⟩

end Opening

/-! ## All points -/

/-- The file ends in front of the end of the last point. -/
theorem readPoints_eq_error (h : ¬f.recordPlace f.pointCount ≤ f.bytes.length) :
    ∃ fault, f.readPoints = .error (.file fault) := by
  unfold readPoints
  by_cases htotal : UInt64.size ≤ f.pointCount * f.header.recordLength.toNat
  · rw [if_pos htotal]
    exact ⟨_, rfl⟩
  · rw [if_neg htotal, Bytes.range_of_lt (Nat.not_le.1 h)]
    exact ⟨_, rfl⟩

/-- The end of the last point lies within the file if each point's record does. -/
theorem forall_holdsRecord_iff (hpoints : 0 < f.pointCount) :
    (∀ i < f.pointCount, f.HoldsRecord i) ↔ f.recordPlace f.pointCount ≤ f.bytes.length := by
  have hcount : f.pointCount - 1 + 1 = f.pointCount := Nat.sub_add_cancel hpoints
  have hlast : f.HoldsRecord (f.pointCount - 1) ↔
      f.recordPlace f.pointCount ≤ f.bytes.length := by rw [HoldsRecord, hcount]
  rw [← hlast]
  constructor
  · intro h
    exact h _ (Nat.sub_lt hpoints Nat.one_pos)
  · intro h i hi
    exact h.mono (Nat.le_sub_one_of_lt hi)

namespace Opening

variable {file : Bytes} {settings : Settings} (opening : Opening file settings f)

include opening

/-- All points are those that the records hold, as long as the file holds all of them. -/
theorem readPoints_of_le (hsize : f.bytes.length < UInt64.size)
    (h : f.recordPlace f.pointCount ≤ f.bytes.length) :
    f.readPoints =
      .ok ((List.range f.pointCount).map fun i ↦ .setAll .empty (f.recordFields i)) := by
  have htotal : f.pointCount * f.header.recordLength.toNat < UInt64.size := by
    calc f.pointCount * f.header.recordLength.toNat
        ≤ f.recordPlace f.pointCount := Nat.le_add_left _ _
      _ ≤ f.bytes.length := h
      _ < UInt64.size := hsize
  have hchunks : Bytes.chunks f.header.recordLength.toNat (f.bytes.slice
      f.header.offsetToPoints.toNat (f.pointCount * f.header.recordLength.toNat)) =
        (List.range f.pointCount).map f.recordBytes :=
    Bytes.chunks_slice opening.recordLength_pos h
  have hpoints : ((List.range f.pointCount).map f.recordBytes).mapM f.decodePoint =
      .ok (((List.range f.pointCount).map f.recordBytes).map fun record ↦
        .setAll .empty (f.layout.fields record)) := by
    apply mapM_eq_ok_of_forall
    intro record hrecord
    obtain ⟨i, hi, rfl⟩ := List.mem_map.1 hrecord
    have hpos : 0 < f.pointCount := Nat.zero_lt_of_lt (List.mem_range.1 hi)
    apply opening.decodePoint_recordBytes
    exact (forall_holdsRecord_iff hpos).2 h i (List.mem_range.1 hi)
  calc f.readPoints
      = ((Bytes.chunks f.header.recordLength.toNat (f.bytes.slice
          f.header.offsetToPoints.toNat (f.pointCount * f.header.recordLength.toNat))).mapM
            f.decodePoint) := by
        unfold readPoints
        rw [if_neg (Nat.not_le.2 htotal), Bytes.range_of_le h]
        rfl
    _ = _ := by
        rw [hchunks, hpoints, List.map_map]
        rfl

/-- All points are read exactly if the file holds all of them. -/
theorem exists_readPoints_eq_ok_iff (hsize : f.bytes.length < UInt64.size) :
    (∃ points, f.readPoints = .ok points) ↔ f.recordPlace f.pointCount ≤ f.bytes.length := by
  constructor
  · rintro ⟨points, hpoints⟩
    by_contra hcut
    obtain ⟨fault, hfault⟩ := readPoints_eq_error hcut
    cases hfault.symm.trans hpoints
  · intro h
    exact ⟨_, opening.readPoints_of_le hsize h⟩

end Opening

/-! ## Opened files -/

variable {file : Bytes} {settings : Settings}

/-- Reading a point of an opened file, whatever the file states about its records, as long as its
size has sixty-four bits. There is nothing to read past the last point. A record that ends within
the file gives every dimension of the format and every extra dimension the value that the record
holds, and the others stay. A record that does not end there is a fault of the file and changes
nothing. No field reaches past its record. -/
theorem readPoint_of_ofBytes (hopen : ofBytes file settings = .ok f)
    (hsize : file.length < UInt64.size) (index : Nat) (p : Point) :
    let length := f.header.recordLength.toNat
    let start := f.header.offsetToPoints.toNat
    (f.pointCount ≤ index → f.readPoint index p = .ok false p) ∧
    (index < f.pointCount → start + (index + 1) * length ≤ file.length →
      ∃ decoded q, f.decodePoint (file.slice (start + index * length) length) = .ok decoded ∧
        (∀ d, decoded.has d = true ↔
          d ∈ FormatLayout.dimensionsOf f.header.format ∨ d ∈ f.extraDims.map ExtraDim.id) ∧
        f.readPoint index p = .ok true q ∧ ∀ d, q.get? d = (decoded.get? d).or (p.get? d)) ∧
    (index < f.pointCount → file.length < start + (index + 1) * length →
      ∃ fault, f.readPoint index p = .error (.file fault) p) ∧
    ∀ slot ∈ f.layout.slots, slot.start + slot.width ≤ length := by
  intro length start
  obtain ⟨opening⟩ := exists_opening hopen
  have hbytes := opening.bytes_eq
  subst hbytes
  refine ⟨fun hpast ↦ readPoint_of_pointCount_le hpast p, fun hindex hend ↦ ?_,
    fun hindex hcut ↦ ?_, fun slot hslot ↦ ?_⟩
  · have hdimensions : FormatLayout.dimensionsOf f.header.format = opening.format.dimensions := by
      rw [FormatLayout.dimensionsOf, opening.ofNumber?_eq]
      rfl
    refine ⟨.setAll .empty (f.recordFields index), p.setAll (f.recordFields index),
      opening.decodePoint_recordBytes hend, fun d ↦ ?_,
      opening.readPoint_of_holdsRecord hsize hindex hend p, fun d ↦ p.get?_setAll _ d⟩
    rw [Point.has_setAll_empty, recordFields, opening.layout_eq, hdimensions]
    exact RecordLayout.mem_map_fst_fields opening.ofNumber?_eq _ _ _ d
  · exact readPoint_of_not_holdsRecord hindex (Nat.not_le.2 hcut) p
  · exact RecordLayout.end_le_of_mem_slots hslot opening.recordLength_le

/-- A file of version 1.2 with two records of 21 bytes, of which some are there. -/
def twoRecords (present : Nat) : Bytes :=
  Header.encode { Header.blank with recordLength := 21, legacyPoints := 2 } ++
    List.replicate present 1

/-- Of a point with another value, the first record sets its own fields, and the second, of which a
byte is missing, sets none. -/
theorem readPoint_of_ofBytes_twoRecords :
    let settings : Settings := { Settings.standard with extraDims := ["a=uint8"] }
    let p : Point := .set .empty (.user "b") (.unsigned 5)
    ∃ f q fault, ofBytes (twoRecords 41) settings = .ok f ∧ f.pointCount = 2 ∧
      f.readPoint 0 p = .ok true q ∧ q.get? (.user "a") = some (.unsigned 1) ∧
      q.get? .pointSourceId = some (.unsigned 257) ∧ q.get? (.user "b") = some (.unsigned 5) ∧
      f.readPoint 1 p = .error (.file fault) p ∧ f.readPoint 2 p = .ok false p := by
  intro settings p
  have hrun : (do
      let f ← ofBytes (twoRecords 41) settings
      let decoded ← f.decodePoint ((twoRecords 41).slice 227 21)
      return (f.pointCount, f.header.recordLength.toNat, f.header.offsetToPoints.toNat,
        [Dimension.user "a", .pointSourceId, .user "b"].map decoded.get?) :
        Except Error _).toOption =
      some (2, 21, 227, [some (.unsigned 1), some (.unsigned 257), none]) := by decide +kernel
  have hlength : (twoRecords 41).length = 268 := by decide +kernel
  have hsteps := eq_ok_of_toOption hrun
  simp only [bind_eq_ok, pure_eq_ok, Prod.mk.injEq, List.map_cons, List.map_nil,
    List.cons.injEq] at hsteps
  obtain ⟨f, hopen, decoded, hdecoded, hcount, hwidth, hstart, ha, hsource, hb, -⟩ := hsteps
  have hread (index : Nat) :=
    readPoint_of_ofBytes hopen (by rw [hlength]; decide) index p
  simp only [hcount, hwidth, hstart, hlength] at hread
  obtain ⟨-, hfirst, -⟩ := hread 0
  obtain ⟨-, -, hcut, -⟩ := hread 1
  obtain ⟨hpast, -⟩ := hread 2
  obtain ⟨found, q, hfound, -, hq, hfields⟩ := hfirst (by decide) (by decide)
  obtain rfl : decoded = found := Except.ok.inj (hdecoded.symm.trans hfound)
  obtain ⟨fault, hfault⟩ := hcut (by decide) (by decide)
  refine ⟨f, q, fault, hopen, hcount, hq, ?_, ?_, ?_, hfault, hpast (by decide)⟩
  · rw [hfields, ha]
    rfl
  · rw [hfields, hsource]
    rfl
  · rw [hfields, hb]
    rfl

/-- All points of an opened file whose size has sixty-four bits are read if each of them is, and
then they are the points that are read one by one, in their order and each of them once. A record
has some bytes, and if points are missing it is the fault of the file. -/
theorem readPoints_of_ofBytes (hopen : ofBytes file settings = .ok f)
    (hsize : file.length < UInt64.size) (hpoints : 0 < f.pointCount) :
    ((∃ points, f.readPoints = .ok points) ↔
      ∀ i < f.pointCount, ∃ p, f.readPoint i .empty = .ok true p) ∧
    (∀ points, f.readPoints = .ok points → points.length = f.pointCount ∧
      ∀ i < f.pointCount, ∃ p, points[i]? = some p ∧ f.readPoint i .empty = .ok true p) ∧
    (∀ e, f.readPoints = .error e → ∃ fault, e = .file fault) ∧
    0 < f.header.recordLength.toNat := by
  obtain ⟨opening⟩ := exists_opening hopen
  have hbytes := opening.bytes_eq
  subst hbytes
  have hall : (∀ i < f.pointCount, ∃ p, f.readPoint i .empty = .ok true p) ↔
      f.recordPlace f.pointCount ≤ f.bytes.length := by
    rw [← forall_holdsRecord_iff hpoints]
    apply forall₂_congr
    intro i hi
    rw [opening.readPoint_eq_true_iff hsize]
    exact and_iff_right hi
  have hread := opening.exists_readPoints_eq_ok_iff hsize
  refine ⟨hread.trans hall.symm, fun points hsome ↦ ?_, fun e herror ↦ ?_,
    opening.recordLength_pos⟩
  · have h := hread.1 ⟨points, hsome⟩
    obtain rfl := Except.ok.inj ((opening.readPoints_of_le hsize h).symm.trans hsome)
    refine ⟨by rw [List.length_map, List.length_range], fun i hi ↦ ?_⟩
    refine ⟨.setAll .empty (f.recordFields i), ?_, ?_⟩
    · rw [List.getElem?_map, List.getElem?_range hi]
      rfl
    · apply opening.readPoint_of_holdsRecord hsize hi
      exact (forall_holdsRecord_iff hpoints).2 h i hi
  · have hcut : ¬f.recordPlace f.pointCount ≤ f.bytes.length := by
      intro h
      cases herror.symm.trans (opening.readPoints_of_le hsize h)
    obtain ⟨fault, hfault⟩ := readPoints_eq_error hcut
    exact ⟨fault, Except.error.inj (herror.symm.trans hfault)⟩

/-- Both records are there, and a byte behind them. -/
theorem readPoints_of_ofBytes_twoRecords :
    ∃ f first second, ofBytes (twoRecords 43) .standard = .ok f ∧
      f.readPoints = .ok [first, second] ∧ f.readPoint 0 .empty = .ok true first ∧
      f.readPoint 1 .empty = .ok true second := by
  have hrun : (do
      let f ← ofBytes (twoRecords 43) .standard
      let points ← f.readPoints
      return (f.pointCount, points.length) : Except Error _).toOption = some (2, 2) := by
    decide +kernel
  have hlength : (twoRecords 43).length = 270 := by decide +kernel
  have hsteps := eq_ok_of_toOption hrun
  simp only [bind_eq_ok, pure_eq_ok, Prod.mk.injEq] at hsteps
  obtain ⟨f, hopen, points, hpoints, hcount, htwo⟩ := hsteps
  obtain ⟨-, hsame, -⟩ :=
    readPoints_of_ofBytes hopen (by rw [hlength]; decide) (by rw [hcount]; decide)
  obtain ⟨first, second, rfl⟩ := List.length_eq_two.1 htwo
  obtain ⟨-, hread⟩ := hsame _ hpoints
  obtain ⟨p, hp, hfirst⟩ := hread 0 (by rw [hcount]; decide)
  obtain ⟨q, hq, hsecond⟩ := hread 1 (by rw [hcount]; decide)
  cases hp
  cases hq
  exact ⟨f, first, second, hopen, hpoints, hfirst, hsecond⟩

end OpenFile

end LasFile
