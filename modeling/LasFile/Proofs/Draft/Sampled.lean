import LasFile.Proofs.Draft.Opened
import LasFile.Proofs.ExtraDim.Sampled
import LasFile.Proofs.Settings.Named

/-!
# Files that take all dimensions of their first point

With all dimensions asked for, the first point that is accepted settles the layout. Its fields that
the format has no place for are all stored as they are, and the file that is closed later gives
every one of them back with the first record.
-/

namespace LasFile

open Draft Outcome

namespace Draft

variable {memory : Bytes} {created : CreationDate} {settings : Settings} {vlrs : List Vlr}
  {new first : Draft} {p : Point}

/-- A draft that nothing was written to is started with the dimensions of a point, placed behind the
standard fields. -/
theorem dimsOf_origin {format : FormatLayout}
    (hformat : FormatLayout.ofNumber? settings.pointFormat = some format) (minor : UInt8) :
    (origin memory created settings vlrs minor).dimsOf p =
      ExtraDim.contiguous format.baseSize (Selection.carried p settings.pointFormat) := by
  have hbyte : (origin memory created settings vlrs minor).header.formatByte =
      settings.pointFormat := rfl
  have hnumber : (origin memory created settings vlrs minor).header.format =
      settings.pointFormat :=
    (Header.format_eq_formatByte (hbyte ▸ hformat)).1
  rw [dimsOf, hnumber, hformat, Selection.sampled_eq]
  exact ExtraDim.relocate_contiguous _ _

/-- A new draft that is to take all dimensions is started with those of the point that it accepts
first. -/
theorem exists_front_of_all (hcreate : create memory created settings vlrs = .ok new)
    (hall : ∃ entry ∈ settings.extraDims, Text.trim entry = "all")
    (hfirst : writePoint p new = .ok () first) :
    ∃ (minor : UInt8) (front : Front (.create created settings.pointFormat minor settings.scaling)
        (vlrs.filter fun v ↦ !v.isExtraBytes) (Selection.carried p settings.pointFormat)),
      writePoint p (front.draft memory) = .ok () first := by
  obtain ⟨format, minor, selection, hformat, hminor, hselection, hnew⟩ := create_eq_ok hcreate
  obtain rfl := Selection.parse_eq_all hall hselection
  obtain rfl : new = origin memory created settings vlrs minor := hnew
  obtain ⟨minimum, -, -, hmost⟩ := Settings.minorToWrite_eq_ok hminor
  rw [writePoint_of_open rfl, dimsOf_origin hformat minor] at hfirst
  cases hstart : start (ExtraDim.contiguous format.baseSize
      (Selection.carried p settings.pointFormat)) (origin memory created settings vlrs minor) with
  | error e s =>
    rw [hstart] at hfirst
    cases hfirst
  | ok _ s =>
    rw [hstart] at hfirst
    obtain ⟨front, rfl⟩ := Front.exists_of_start
      (Header.isNew_create created settings.pointFormat hmost settings.scaling) hformat hstart
    exact ⟨minor, front, hfirst⟩

/-- The first point of a file that takes all dimensions is read back whole. Its fields outside the
format have the values they were written with, apart from runs of bytes that are empty or too long.
Their names have to lead back to them and to fit their fields. -/
theorem readPoint_zero_of_all {points : List Point} {bytes : Bytes}
    (hcreate : create memory created settings vlrs = .ok new)
    (hall : ∃ entry ∈ settings.extraDims, Text.trim entry = "all")
    (husers : ∀ v ∈ vlrs, '\x00' ∉ v.userId.toList)
    (hcanonical : ∀ d ∈ p.dimensions, d.IsCanonical)
    (hnames : ∀ d ∈ p.dimensions, d.name.utf8ByteSize ≤ 32 ∧ '\x00' ∉ d.name.toList)
    (hfirst : writePoint p new = .ok () first)
    (hplace : first.PlaceFits) (hclose : (first.writeAll points).draft.close = .ok bytes) :
    ∃ f, OpenFile.ofBytes bytes .standard = .ok f ∧
      (0 < f.pointCount → ∃ q, f.readPoint 0 .empty = .ok true q ∧
        ∀ d v, p.get? d = some v → d ∉ FormatLayout.dimensionsOf settings.pointFormat →
          (∀ bs, v = .bytes bs → 0 < bs.length ∧ bs.length ≤ 255) → q.get? d = some v) := by
  obtain ⟨minor, front, hwrite⟩ := exists_front_of_all hcreate hall hfirst
  obtain ⟨record, hencode, rfl⟩ := front.writePoint_draft_eq_ok.1 hwrite
  have hrun : ((front.draft memory).writeAll (p :: points)).draft =
      (((front.draft memory).accept p record).writeAll points).draft := by
    rw [writeAll_cons_ok hwrite]
  rw [← hrun, front.close_writeAll_draft, Except.ok.injEq] at hclose
  obtain rfl := hclose
  have hothers : ∀ v ∈ vlrs.filter fun v ↦ !v.isExtraBytes, ¬Catalog.ReadsAsDescription v :=
    Catalog.not_readsAsDescription fun v hv ↦ Catalog.isExtraBytes_of_stored (husers v hv)
  have haccepted : (front.accepted (p :: points))[0]? = some p := by
    rw [Front.accepted, takenBy, List.filter_cons, hencode]
    rfl
  refine ⟨_, front.ofBytes_written (p :: points) (front.length_records_lt hplace)
    (fun dim ↦ Selection.isDescribable_of_mem_carried hnames) hothers _, fun hsome ↦ ?_⟩
  have hstart : 0 * front.recordLength + ((Header.create created settings.pointFormat minor
      settings.scaling).headerSize.toNat + Vlr.totalSize .short front.records) < UInt64.size := by
    rw [Nat.zero_mul, Nat.zero_add]
    exact Nat.lt_trans hplace (by decide)
  obtain ⟨q, hread, hdims⟩ := front.readPoint_opened (p :: points)
    (Selection.nodup_map_id_carried hcanonical) hplace _ hsome haccepted hstart .empty
  exact ⟨q, hread, Selection.get?_of_carried hcanonical hdims⟩

/-- A point with a field of each kind outside format 0, one of them empty. -/
def everyKind : Point := Point.empty.setAll
  [(.intensity, .unsigned 7), (.user "Big", .unsigned 9007199254740993),
    (.gpsTime, .float ⟨0x7FF8000000000001⟩), (.user "Hash", .bytes [1, 0, 3]),
    (.user "None", .bytes []), (.user "Shift", .signed (-1))]

theorem sampled_everyKind : Selection.sampled everyKind 0 =
    [.plain "Big" (.scalar (.unsigned .eight)) 0, .plain "GpsTime" (.scalar .double) 8,
      .plain "Hash" (.raw 3) 16, .plain "Shift" (.scalar (.signed .eight)) 19] := by
  have hsorted : (everyKind.fields.filter fun field ↦
      !(FormatLayout.dimensionsOf 0).contains field.1).Pairwise
        fun a b ↦ decide (a.1.name ≤ b.1.name) = true := by
    decide +kernel
  have hunplaced : Selection.unplaced everyKind 0 = everyKind.fields.filter fun field ↦
      !(FormatLayout.dimensionsOf 0).contains field.1 :=
    List.mergeSort_of_pairwise hsorted
  rw [Selection.sampled, hunplaced]
  decide +kernel

/-- Every kind of value comes back, with a point behind it that lacks the fields. -/
theorem readPoint_zero_of_all_everyKind :
    let settings : Settings := { Settings.standard with pointFormat := 0, extraDims := [" all"] }
    let kept : List (Dimension × Value) := [(.user "Big", .unsigned 9007199254740993),
      (.gpsTime, .float ⟨0x7FF8000000000001⟩), (.user "Hash", .bytes [1, 0, 3]),
      (.user "Shift", .signed (-1))]
    ∃ (new first : Draft) (bytes : Bytes) (f : OpenFile) (q : Point),
      create [] ⟨0, 0⟩ settings [.of "LASF_Spec" 4 "" [1, 2]] = .ok new ∧
      writePoint everyKind new = .ok () first ∧
      (first.writeAll [.empty]).draft.close = .ok bytes ∧
      OpenFile.ofBytes bytes .standard = .ok f ∧ f.pointCount = 2 ∧
      f.readPoint 0 .empty = .ok true q ∧ ∀ field ∈ kept, q.get? field.1 = some field.2 := by
  intro settings kept
  let vlrs : List Vlr := [.of "LASF_Spec" 4 "" [1, 2]]
  let new := origin [] ⟨0, 0⟩ settings vlrs 2
  let dims : List ExtraDim :=
    [.plain "Big" (.scalar (.unsigned .eight)) 20, .plain "GpsTime" (.scalar .double) 28,
      .plain "Hash" (.raw 3) 36, .plain "Shift" (.scalar (.signed .eight)) 39]
  have hcreate : create [] ⟨0, 0⟩ settings vlrs = .ok new := eq_ok_of_toOption (by decide +kernel)
  have hdims : new.dimsOf everyKind = dims := by
    have hformat : new.header.format = 0 := by decide
    rw [dimsOf, hformat, sampled_everyKind]
    decide
  have hrun : (do
      let prepared ← prepare dims new
      let blocks ← prepared.vlrs.mapM (·.encode .short)
      let record ← (prepared.started dims blocks).encodePoint everyKind
      let first := (prepared.started dims blocks).accept everyKind record
      let bytes ← (first.writeAll [.empty]).draft.close
      let f ← OpenFile.ofBytes bytes .standard
      return (decide first.PlaceFits, f.pointCount) : Except Error _).toOption =
      some (true, 2) := by decide +kernel
  have hsteps := eq_ok_of_toOption hrun
  simp only [bind_eq_ok, pure_eq_ok, Prod.mk.injEq, decide_eq_true_eq] at hsteps
  obtain ⟨prepared, hprepared, blocks, hblocks, record, hrecord, bytes, hclose, opened, hopened,
    hplace, hcount⟩ := hsteps
  have hfirst := writePoint_of_start_ok rfl hdims hprepared hblocks hrecord
  have hcanonical : ∀ d ∈ everyKind.dimensions, d.IsCanonical := by decide +kernel
  have hnames : ∀ d ∈ everyKind.dimensions, d.name.utf8ByteSize ≤ 32 ∧ '\x00' ∉ d.name.toList := by
    decide +kernel
  obtain ⟨f, hopen, hread⟩ := readPoint_zero_of_all hcreate ⟨" all", by decide, by decide +kernel⟩
    (by decide +kernel) hcanonical hnames hfirst hplace hclose
  obtain rfl : opened = f := Except.ok.inj (hopened.symm.trans hopen)
  obtain ⟨q, hq, hfields⟩ := hread (by rw [hcount]; decide)
  have hkept : ∀ field ∈ kept, everyKind.get? field.1 = some field.2 ∧
      field.1 ∉ FormatLayout.dimensionsOf 0 := by
    decide +kernel
  have hshort : ∀ field ∈ kept, ∀ bs, field.2 = .bytes bs → 0 < bs.length ∧ bs.length ≤ 255 := by
    simp [kept]
  refine ⟨new, _, bytes, opened, q, hcreate, hfirst, hclose, hopened, hcount, hq, ?_⟩
  intro field hfield
  obtain ⟨hvalue, hother⟩ := hkept field hfield
  exact hfields _ _ hvalue hother (hshort field hfield)

end Draft

end LasFile
