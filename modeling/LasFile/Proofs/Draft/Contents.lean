import LasFile.Proofs.Draft.Plan

/-!
# Contents of finished files

A file whose dimensions are named consists of a header, the records of its plan, and the records of
the accepted points in order; behind these stands what was in memory before. A point is accepted
exactly if its record can be packed, and a refused one leaves no byte behind.
-/

namespace LasFile

open Draft Outcome

/-- What a header states of its file: where the points begin, how many records stand in front of
them, and how long the record of a point is. -/
structure Header.Describes (h : Header) (place count length : Nat) : Prop where
  offsetToPoints : h.offsetToPoints.toNat = place
  vlrCount : h.vlrCount.toNat = count
  recordLength : h.recordLength.toNat = length

/-- A header that is read back states the same. -/
theorem Header.Describes.reread {h : Header} {place count length : Nat}
    (hh : h.Describes place count length) : h.reread.Describes place count length :=
  ⟨hh.offsetToPoints, hh.vlrCount, hh.recordLength⟩

namespace Plan

variable {settings : Settings} {vlrs : List Vlr} (plan : Plan settings vlrs)

/-- The points that are accepted. -/
def accepted (points : List Point) : List Point := takenBy plan.layout plan.recordLength points

/-- The records of the accepted points. -/
def pointRecords (points : List Point) : List Bytes :=
  recordsOf plan.layout plan.recordLength points

/-- The header of the finished file. -/
def finalHeader (created : CreationDate) (points : List Point) : Header :=
  (plan.header created).withTally (.ofPoints (plan.accepted points))

/-- What is written in the end: the header, the records in front of the points, and the points. -/
def written (created : CreationDate) (points : List Point) : Bytes :=
  (plan.finalHeader created points).encode ++ plan.blocks.flatten ++
    (plan.pointRecords points).flatten

/-! ## Lengths -/

theorem length_of_mem_pointRecords {points : List Point} {record : Bytes}
    (h : record ∈ plan.pointRecords points) : record.length = plan.recordLength :=
  (plan.front default).length_of_mem_pointRecords h

theorem length_finalHeader (created : CreationDate) (points : List Point) :
    (plan.finalHeader created points).encode.length = (Version.headerSize plan.minor).toNat :=
  (plan.front created).length_finalHeader points

/-- The place of the points if it fits its field. -/
theorem toNat_offsetToPoints {created : CreationDate} {points : List Point}
    (hplace : (plan.front created).PlaceFits) :
    (plan.finalHeader created points).offsetToPoints.toNat =
      (plan.finalHeader created points).encode.length + plan.blocks.flatten.length :=
  (plan.front created).toNat_offsetToPoints hplace

/-- Records that take no more than the place of the points tells are few enough to be counted. -/
theorem length_records_lt {created : CreationDate} (hplace : (plan.front created).PlaceFits) :
    plan.records.length < UInt32.size :=
  (plan.front created).length_records_lt hplace

/-- The number of records if it fits its field. -/
theorem toNat_vlrCount {created : CreationDate} {points : List Point}
    (hplace : (plan.front created).PlaceFits) :
    (plan.finalHeader created points).vlrCount.toNat = plan.blocks.length := by
  have hcount := (plan.front created).toNat_vlrCount_of_lt (plan.length_records_lt hplace) points
  exact hcount.trans (length_of_mapM_eq_ok plan.blocks_eq).symm

theorem toNat_recordLength (created : CreationDate) (points : List Point) :
    (plan.finalHeader created points).recordLength.toNat = plan.recordLength :=
  (plan.front created).toNat_recordLength points

/-- The final header states the contents of the file. -/
theorem describes_finalHeader {created : CreationDate} (hplace : (plan.front created).PlaceFits)
    (points : List Point) :
    (plan.finalHeader created points).Describes
      ((plan.finalHeader created points).encode ++ plan.blocks.flatten).length plan.blocks.length
      plan.recordLength where
  offsetToPoints := by rw [plan.toNat_offsetToPoints hplace, List.length_append]
  vlrCount := plan.toNat_vlrCount hplace
  recordLength := plan.toNat_recordLength created points

/-! ## Runs -/

/-- Every run of the draft of a plan. -/
theorem writeAll_draft (memory : Bytes) (created : CreationDate) (points : List Point) :
    (plan.draft memory created).writeAll points =
      { draft := { plan.draft memory created with
          sink := .holding memory ((plan.header created).encode ++ plan.blocks.flatten ++
            (plan.pointRecords points).flatten)
          tally := .ofPoints (plan.accepted points) }
        answers := points.map fun p ↦
          (plan.layout.encode plan.recordLength p).map fun _ ↦ ()
        accepted := plan.accepted points } :=
  (plan.front created).writeAll_draft memory points

/-- The file that a run leaves. -/
theorem close_writeAll_draft (memory : Bytes) (created : CreationDate) (points : List Point) :
    ((plan.draft memory created).writeAll points).draft.close =
      .ok (plan.written created points ++
        memory.drop (plan.written created points).length) :=
  (plan.front created).close_writeAll_draft memory points

end Plan

/-- What a finished file consists of, for every memory, all given records and every run. Writing the
file fails at no point of the run but where a record cannot be packed, and closing it does not fail.
The header of the closed draft states where the points begin, how many records stand in front of
them and how long the record of a point is, and so does the header that is read from the file. -/
theorem Draft.contents_of_create {memory : Bytes} {created : CreationDate} {settings : Settings}
    {vlrs : List Vlr} {d : Draft} (hcreate : create memory created settings vlrs = .ok d)
    (hnamed : ∀ entry ∈ settings.extraDims, Text.trim entry ≠ "all") (hplace : d.PlaceFits)
    (points : List Point) :
    ∃ (plan : Plan settings vlrs) (closed : Draft) (records : List Bytes) (found : Header),
      let header := plan.finalHeader created points
      let front := header.encode ++ plan.blocks.flatten
      settings.selection true = .ok (.only (ExtraDim.contiguous 0 plan.given)) ∧
      settings.recordLayout = .ok plan.layout ∧
      records = points.filterMap (fun p ↦ (plan.layout.encode plan.recordLength p).toOption) ∧
      (∀ record ∈ records, record.length = plan.recordLength) ∧
      (d.writeAll points).answers =
        points.map (fun p ↦ (plan.layout.encode plan.recordLength p).map fun _ ↦ ()) ∧
      finish (d.writeAll points).draft = .ok () closed ∧ closed.header = header ∧
      (d.writeAll points).draft.close =
        .ok (front ++ records.flatten ++ memory.drop (front ++ records.flatten).length) ∧
      header.encode.length = (Version.headerSize plan.minor).toNat ∧
      header.Describes front.length plan.blocks.length plan.recordLength ∧
      Header.decode
        (front ++ records.flatten ++ memory.drop (front ++ records.flatten).length) = .ok found ∧
      found.headerSize = Version.headerSize plan.minor ∧
      found.Describes front.length plan.blocks.length plan.recordLength := by
  obtain ⟨plan, rfl⟩ := Plan.exists_of_create hcreate hnamed
  have hfits := ((plan.front created).placeFits_draft memory).1 hplace
  have hdescribes := plan.describes_finalHeader hfits points
  refine ⟨plan, _, plan.pointRecords points, (plan.finalHeader created points).reread,
    (Selection.parse_eq_ok_of_named hnamed).2 ⟨plan.given, plan.given_eq, rfl⟩,
    Settings.recordLayout_of_named hnamed plan.format_eq plan.given_eq, rfl,
    fun record ↦ plan.length_of_mem_pointRecords, ?_,
    (plan.front created).finish_writeAll_draft memory points,
    (plan.front created).header_finished_writeAll_draft memory points,
    plan.close_writeAll_draft memory created points, plan.length_finalHeader created points,
    hdescribes, (plan.front created).decode_written points _, ?_, hdescribes.reread⟩
  · rw [plan.writeAll_draft]
  · have hversion := (plan.front created).version_finalHeader points
    exact congrArg (fun version ↦ Version.headerSize version.minor) hversion

/-- A given record, a given description that is left out, and memory that reaches past the points.
The points begin behind 529 bytes with two records and take thirty-five bytes each. -/
theorem Draft.contents_of_create_prefilled :
    let settings : Settings := { Settings.standard with extraDims := ["a = uint8"] }
    let vlrs : List Vlr := [.of "user" 7 "" [1, 2], .of "LASF_Spec" 4 "" [3]]
    let points : List Point := [.set .empty (.user "a") (.unsigned 1),
      .set .empty (.user "a") (.unsigned 300), .set .empty .intensity (.unsigned 9)]
    ∃ (d : Draft) (plan : Plan settings vlrs) (closed : Draft) (records : List Bytes)
        (found : Header),
      let front := (plan.finalHeader ⟨0, 0⟩ points).encode ++ plan.blocks.flatten
      let bytes := front ++ records.flatten ++
        (List.replicate 700 255).drop (front ++ records.flatten).length
      create (List.replicate 700 255) ⟨0, 0⟩ settings vlrs = .ok d ∧
      (∀ entry ∈ settings.extraDims, Text.trim entry ≠ "all") ∧ d.PlaceFits ∧
      (d.writeAll points).answers.map (·.isOk) = [true, false, true] ∧
      finish (d.writeAll points).draft = .ok () closed ∧
      closed.header = plan.finalHeader ⟨0, 0⟩ points ∧ closed.header.Describes 529 2 35 ∧
      front.length = 529 ∧ plan.blocks.length = 2 ∧ (∀ record ∈ records, record.length = 35) ∧
      (d.writeAll points).draft.close = .ok bytes ∧ Header.decode bytes = .ok found ∧
      found.Describes 529 2 35 := by
  intro settings vlrs points
  have hrun : (do
      let d ← create (List.replicate 700 255) ⟨0, 0⟩ settings vlrs
      let bytes ← (d.writeAll points).draft.close
      let found ← Header.decode bytes
      return (decide d.PlaceFits, (d.writeAll points).answers.map (·.isOk),
        found.offsetToPoints.toNat, found.vlrCount.toNat,
        found.recordLength.toNat) : Except Error _).toOption =
      some (true, [true, false, true], 529, 2, 35) := by decide +kernel
  have hsteps := eq_ok_of_toOption hrun
  simp only [bind_eq_ok, pure_eq_ok, Prod.mk.injEq, decide_eq_true_eq] at hsteps
  obtain ⟨d, hcreate, bytes, hbytes, read, hread, hplace, hanswers, hstart, hcount, hlength⟩ :=
    hsteps
  have hnamed : ∀ entry ∈ settings.extraDims, Text.trim entry ≠ "all" := by decide +kernel
  obtain ⟨plan, closed, records, found, -, -, -, hrecords, -, hfinish, hheader, hclose, -, hstates,
    hdecode, -, hfound⟩ := contents_of_create hcreate hnamed hplace points
  -- What the header of this file states is computed from its bytes.
  obtain rfl := Except.ok.inj (hbytes.symm.trans hclose)
  obtain rfl : read = found := Except.ok.inj (hread.symm.trans hdecode)
  have hfront := hfound.offsetToPoints.symm.trans hstart
  have hblocks := hfound.vlrCount.symm.trans hcount
  have hsize := hfound.recordLength.symm.trans hlength
  rw [hfront, hblocks, hsize] at hstates hfound
  exact ⟨d, plan, closed, records, read, hcreate, hnamed, hplace, hanswers, hfinish, hheader,
    hheader ▸ hstates, hfront, hblocks, hsize ▸ hrecords, hclose, hdecode, hfound⟩

end LasFile
