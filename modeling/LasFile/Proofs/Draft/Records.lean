import LasFile.Proofs.Draft.Count
import LasFile.Proofs.ExtraDim.Contiguous
import LasFile.Proofs.Record.Fields
import LasFile.Proofs.Record.Length
import LasFile.Proofs.Settings.Named
import LasFile.Proofs.Vlr.Length

/-!
# Records of finished files

However the dimensions of a file are settled, its points are those that were accepted: behind the
header and the records in front, the finished file holds the record of each accepted point in order,
packed by the layout that the file was settled with.
-/

namespace LasFile.Draft

open Outcome

/-- The records of the counted points, cut apart where the header places them. -/
def pointRecords (d : Draft) : List Bytes :=
  Bytes.parts d.header.recordLength.toNat d.tally.count
    (d.sink.bytes.drop d.header.offsetToPoints.toNat)

/-! ## Layouts of drafts -/

/-- Dimensions stored as they are, one behind the other behind the standard fields of a draft's
format. -/
def PlacesBehind (d : Draft) (dims : List ExtraDim) : Prop :=
  ∀ format, FormatLayout.ofNumber? d.header.format = some format →
    ∃ given, dims = ExtraDim.contiguous format.baseSize given ∧
      ∀ dim ∈ given, dim.transform = .identity

theorem placesBehind_nil (d : Draft) : d.PlacesBehind [] :=
  fun _ _ ↦ ⟨[], rfl, List.forall_mem_nil _⟩

/-- Dimensions that were placed from the beginning on are moved behind the standard fields. -/
theorem placesBehind_relocate {d : Draft} {format : FormatLayout}
    (hformat : FormatLayout.ofNumber? d.header.format = some format) {given : List ExtraDim}
    (hplain : ∀ dim ∈ given, dim.transform = .identity) :
    d.PlacesBehind (ExtraDim.relocate format.baseSize (ExtraDim.contiguous 0 given)) := by
  intro known hknown
  obtain rfl : format = known := Option.some.inj (hformat.symm.trans hknown)
  exact ⟨given, ExtraDim.relocate_contiguous _ _, hplain⟩

theorem placesBehind_dimsOf (d : Draft) (p : Point) : d.PlacesBehind (d.dimsOf p) := by
  intro format hformat
  have hdims : d.dimsOf p =
      ExtraDim.relocate format.baseSize (Selection.sampled p d.header.format) := by
    rw [dimsOf, hformat]
    rfl
  rw [hdims]
  refine placesBehind_relocate hformat (fun dim hdim ↦ ?_) format hformat
  obtain ⟨field, -, hfield⟩ := List.mem_filterMap.1 hdim
  obtain ⟨storage, -, rfl⟩ := Option.map_eq_some_iff.1 hfield
  rfl

/-- The header states its own size. -/
def StatesHeaderSize (d : Draft) : Prop :=
  d.header.headerSize = Version.headerSize d.header.version.minor

/-- A draft whose layout is settled, with the records of some points behind those in front. -/
structure Filled (d : Draft) (points : List Point) : Prop where
  statesHeaderSize : d.StatesHeaderSize
  settled : ∃ format given, FormatLayout.ofNumber? d.header.format = some format ∧
    d.layout = some (.ofFormat d.header.format d.header.scaling
      (ExtraDim.contiguous format.baseSize given)) ∧
    (∀ dim ∈ given, dim.transform = .identity) ∧
    d.header.recordLength.toNat = format.recordLength given
  written : ∃ memory front records, d.sink = .holding memory (front ++ List.flatten records) ∧
    front.length = d.frontLength ∧ points.mapM d.encodePoint = .ok records
  offset : d.header.offsetToPoints = .ofNat d.frontLength

theorem Filled.exists_layout {d : Draft} {points : List Point} (h : d.Filled points) :
    ∃ layout, d.layout = some layout := by
  obtain ⟨format, given, -, hlayout, -, -⟩ := h.settled
  exact ⟨_, hlayout⟩

/-- What holds of a draft and the points that it has accepted, also after failures. -/
inductive Sound (d : Draft) : List Point → Prop where
  | unsettled (hheader : d.StatesHeaderSize) (hopen : d.layout = none) : Sound d []
  | filled {accepted : List Point} (h : d.Filled accepted) : Sound d accepted

/-! ## Steps -/

/-- A draft that was started holds no points. -/
theorem filled_started {d prepared : Draft} {format : FormatLayout} {given : List ExtraDim}
    {blocks : List Bytes} (hheader : d.StatesHeaderSize)
    (hformat : FormatLayout.ofNumber? d.header.format = some format)
    (hplain : ∀ dim ∈ given, dim.transform = .identity)
    (hprepared : prepare (ExtraDim.contiguous format.baseSize given) d = .ok prepared)
    (hblocks : prepared.vlrs.mapM (·.encode .short) = .ok blocks) :
    (prepared.started (ExtraDim.contiguous format.baseSize given) blocks).Filled [] := by
  obtain ⟨known, records, hknown, hlength, -, rfl⟩ := prepare_eq_ok.1 hprepared
  obtain rfl : format = known := Option.some.inj (hformat.symm.trans hknown)
  rw [ExtraDim.recordLength_contiguous] at hlength ⊢
  have hfits := UInt16.toNat_ofNat_of_lt' (Nat.lt_succ_of_le hlength)
  refine ⟨hheader, ⟨format, given, hformat, rfl, hplain, hfits⟩, ⟨d.sink.bytes,
    (headerFor d.header (d.vlrs ++ records) (format.recordLength given)).encode ++ blocks.flatten,
    [], ?_, ?_, rfl⟩, rfl⟩
  · rw [List.flatten_nil, List.append_nil]
    rfl
  · rw [List.length_append, Header.length_encode, Vlr.length_flatten_encode hblocks]
    exact congrArg (·.toNat + _) hheader.symm

/-- A start on an open layout settles it, or fails and leaves it open. -/
theorem start_of_unsettled {d : Draft} (hheader : d.StatesHeaderSize) (hopen : d.layout = none)
    {dims : List ExtraDim} (hdims : d.PlacesBehind dims) :
    match start dims d with
    | .ok () s => s.Filled []
    | .error _ s => s.Sound [] := by
  rcases start_cases dims d with ⟨e, -, hstart⟩ | ⟨prepared, blocks, hprepared, hblocks, hstart⟩ |
    ⟨prepared, e, sink, hprepared, -, hstart⟩
  · rw [hstart]
    exact .unsettled hheader hopen
  · obtain ⟨format, records, hformat, -, -, -⟩ := prepare_eq_ok.1 hprepared
    obtain ⟨given, rfl, hplain⟩ := hdims format hformat
    rw [hstart]
    exact filled_started hheader hformat hplain hprepared hblocks
  · obtain ⟨format, records, -, -, -, rfl⟩ := prepare_eq_ok.1 hprepared
    rw [hstart]
    exact .unsettled hheader hopen

/-- An accepted point is written behind those in front of it. -/
theorem Filled.accept {d : Draft} {points : List Point} (h : d.Filled points) {p : Point}
    {record : Bytes} (hrecord : d.encodePoint p = .ok record) :
    (d.accept p record).Filled (points ++ [p]) where
  statesHeaderSize := h.statesHeaderSize
  settled := h.settled
  written := by
    obtain ⟨memory, front, records, hsink, hfront, hrecords⟩ := h.written
    refine ⟨memory, front, records ++ [record], ?_, hfront, ?_⟩
    · rw [Draft.accept, hsink, Sink.write_holding, List.flatten_append, List.append_assoc,
        List.flatten_singleton]
    · exact mapM_append_eq_ok.2
        ⟨records, [record], hrecords, mapM_cons_eq_ok.2 ⟨record, [], hrecord, rfl, rfl⟩, rfl⟩
  offset := h.offset

/-- A filled draft takes a point or stays as it was. -/
theorem Filled.writePoint {d : Draft} {accepted : List Point} (h : d.Filled accepted) (p : Point) :
    match writePoint p d with
    | .ok () s => s.Sound (accepted ++ [p])
    | .error _ s => s.Sound accepted := by
  obtain ⟨layout, hlayout⟩ := h.exists_layout
  have hencode : d.encodePoint p = layout.encode d.header.recordLength.toNat p := by
    rw [encodePoint, hlayout, Option.getD_some]
  rw [writePoint_of_layout hlayout, ← hencode]
  cases hrecord : d.encodePoint p with
  | ok record => exact .filled (h.accept hrecord)
  | error e => exact .filled h

theorem Sound.writePoint {d : Draft} {accepted : List Point} (h : d.Sound accepted) (p : Point) :
    match writePoint p d with
    | .ok () s => s.Sound (accepted ++ [p])
    | .error _ s => s.Sound accepted := by
  cases h with
  | filled h => exact h.writePoint p
  | unsettled hheader hopen =>
    have hstart := start_of_unsettled hheader hopen (d.placesBehind_dimsOf p)
    rw [writePoint_of_open hopen]
    cases hresult : start (d.dimsOf p) d with
    | error e s =>
      rw [hresult] at hstart
      exact hstart
    | ok _ s =>
      rw [hresult] at hstart
      exact hstart.writePoint p

/-! ## Runs -/

theorem Sound.writeAll {d : Draft} (h : d.Sound []) (points : List Point) :
    (d.writeAll points).draft.Sound (d.writeAll points).accepted := by
  have hok : ∀ {d next : Draft} {p : Point} {accepted : List Point}, d.Sound accepted →
      Draft.writePoint p d = .ok () next → next.Sound (accepted ++ [p]) := by
    intro d next p accepted hsound hwrite
    have hstep := hsound.writePoint p
    rwa [hwrite] at hstep
  have herror : ∀ {d next : Draft} {p : Point} {e : Error} {accepted : List Point},
      d.Sound accepted → Draft.writePoint p d = .error e next → next.Sound accepted := by
    intro d next p e accepted hsound hwrite
    have hstep := hsound.writePoint p
    rwa [hwrite] at hstep
  exact writeAll_invariant (I := Sound) hok herror h points

theorem sound_create {memory : Bytes} {created : CreationDate} {settings : Settings}
    {vlrs : List Vlr} {d : Draft} (h : create memory created settings vlrs = .ok d) :
    d.Sound [] := by
  obtain ⟨format, minor, selection, hformat, -, hselection, hnew⟩ := create_eq_ok h
  have hheader : (origin memory created settings vlrs minor).StatesHeaderSize := rfl
  cases selection with
  | all =>
    obtain rfl := hnew
    exact .unsettled hheader rfl
  | only dims =>
    have hnumber :
        FormatLayout.ofNumber? (origin memory created settings vlrs minor).header.format =
          some format := by
      rw [← hformat]
      exact congrArg _ (Header.format_eq_formatByte hformat).1
    obtain ⟨given, rfl, hplain⟩ := Selection.exists_of_parse_eq_only hselection
    have hstart := start_of_unsettled hheader rfl (placesBehind_relocate hnumber hplain)
    simp only at hnew
    rw [hnew] at hstart
    exact .filled hstart

/-! ## Finished files -/

/-- A draft that was finished was filled before, if need be by a start without dimensions. -/
theorem Sound.exists_filled_of_finish {d closed : Draft} {accepted : List Point}
    (h : d.Sound accepted) (hfinish : finish d = .ok () closed) :
    ∃ s : Draft, s.Filled accepted ∧ Gathers d s [] ∧ closed = s.finished := by
  have hsettled : ∀ {s : Draft}, s.Filled accepted → finish s = .ok () closed →
      closed = s.finished := by
    intro s hfilled hclose
    obtain ⟨layout, hlayout⟩ := hfilled.exists_layout
    rw [finish_of_layout hlayout] at hclose
    cases hclose
    rfl
  cases h with
  | filled h => exact ⟨d, h, .refl d, hsettled h hfinish⟩
  | unsettled hheader hopen =>
    have hstart := start_of_unsettled hheader hopen d.placesBehind_nil
    have hgathers := gathers_start [] d
    rw [finish_of_open hopen] at hfinish
    cases hresult : start [] d with
    | error e s =>
      rw [hresult] at hfinish
      cases hfinish
    | ok _ s =>
      rw [hresult] at hstart hgathers hfinish
      exact ⟨s, hstart, hgathers, hsettled hstart hfinish⟩

/-- A file that was created and finished was filled with the accepted points before. -/
theorem exists_gathered_of_finish {memory : Bytes} {created : CreationDate} {settings : Settings}
    {vlrs : List Vlr} {d closed : Draft} {points : List Point}
    (hcreate : create memory created settings vlrs = .ok d)
    (hfinish : finish (d.writeAll points).draft = .ok () closed) :
    ∃ (s : Draft) (format : FormatLayout) (minor : UInt8), closed = s.finished ∧
      s.Filled (d.writeAll points).accepted ∧
      FormatLayout.ofNumber? settings.pointFormat = some format ∧
      settings.minorToWrite = .ok minor ∧
      Gathers (origin memory created settings vlrs minor) s (d.writeAll points).accepted := by
  obtain ⟨s, hfilled, hgathers, hclosed⟩ :=
    ((sound_create hcreate).writeAll points).exists_filled_of_finish hfinish
  obtain ⟨format, minor, hformat, hminor, hnew⟩ := gathers_create hcreate
  have hrun := (hnew.trans (gathers_writeAll d points)).trans hgathers
  rw [List.nil_append, List.append_nil] at hrun
  exact ⟨s, format, minor, hclosed, hfilled, hformat, hminor, hrun⟩

/-- A finished draft holds its final header in front. -/
theorem decode_finished {d : Draft} (hmajor : d.header.version.major = 1)
    (hminor : d.header.version.minor ≤ 4) :
    Header.decode d.finished.sink.bytes = .ok d.finished.header.reread := by
  have hbytes : d.finished.sink.bytes = (d.header.withTally d.tally).encode ++
      d.sink.bytes.drop (d.header.withTally d.tally).encode.length := by
    rw [finished, Sink.seek_zero, Sink.write_holding, Sink.bytes_holding, List.nil_append]
  rw [hbytes]
  exact Header.decode_encode_append _ (by simpa using hmajor) (by simpa using hminor) _

theorem encodePoint_finished (d : Draft) : d.finished.encodePoint = d.encodePoint := by
  funext p
  rw [encodePoint, encodePoint, finished,
    Header.apply_withTally Header.recordLength fun _ _ _ _ _ _ _ ↦ rfl]

/-- The record of a point is packed into zeros, with room for the layout and all extra dimensions
behind the core. -/
theorem exists_pack_of_encodePoint {d : Draft} {number : UInt8} {format : FormatLayout}
    {scaling : Scaling} {given : List ExtraDim}
    (hformat : FormatLayout.ofNumber? number = some format)
    (hlayout : d.layout = some (.ofFormat number scaling
      (ExtraDim.contiguous format.baseSize given)))
    (hlength : d.header.recordLength.toNat = format.recordLength given) {p : Point}
    {record : Bytes} (h : d.encodePoint p = .ok record) :
    let layout := RecordLayout.ofFormat number scaling (ExtraDim.contiguous format.baseSize given)
    let zeros : Bytes := List.replicate (format.recordLength given) 0
    (∀ dim ∈ ExtraDim.contiguous format.baseSize given, format.coreSize ≤ dim.start) ∧
      layout.recordLength ≤ zeros.length ∧ layout.recordLength ≤ record.length ∧
      ∃ configured, layout.pack p zeros = .ok configured record := by
  intro layout zeros
  have hroom := RecordLayout.recordLength_ofFormat_le hformat scaling given
  rw [encodePoint, hlayout, Option.getD_some, hlength] at h
  refine ⟨fun dim hdim ↦ ?_, by rwa [List.length_replicate], ?_, RecordLayout.encode_eq_ok.1 h⟩
  · exact (FormatLayout.coreSize_le_baseSize format (List.mem_of_getElem? hformat)).trans
      (ExtraDim.start_le_of_mem_contiguous hdim)
  · rwa [RecordLayout.length_encode _ _ _ _ h]

/-- The final header is written over its own place, in front of the records. -/
theorem Filled.bytes_finished {d : Draft} {points : List Point} (h : d.Filled points) :
    ∃ front records rest, d.finished.sink.bytes = front ++ (List.flatten records ++ rest) ∧
      front.length = d.frontLength ∧ points.mapM d.encodePoint = .ok records := by
  obtain ⟨memory, front, records, hsink, hfront, hrecords⟩ := h.written
  have hsize : (d.header.withTally d.tally).encode.length = d.header.headerSize.toNat := by
    rw [Header.length_encode_withTally, Header.length_encode, h.statesHeaderSize]
  have hfits : (d.header.withTally d.tally).encode.length ≤ front.length := by
    rw [hsize, hfront]
    exact Nat.le_add_right _ _
  have hbytes : d.finished.sink.bytes =
      (Sink.holding memory ((d.header.withTally d.tally).encode ++
        front.drop (d.header.withTally d.tally).encode.length ++ records.flatten)).bytes := by
    rw [finished, hsink, Sink.bytes_seek_write_of_le hfits]
  rw [Sink.bytes_holding, List.append_assoc _ records.flatten] at hbytes
  refine ⟨_, records, _, hbytes, ?_, hrecords⟩
  rw [List.length_append, List.length_drop, Nat.add_sub_cancel' hfits, hfront]

/-- The header of the finished file leaves the points in their place. -/
theorem placeFits_finished (d : Draft) : d.finished.PlaceFits ↔ d.PlaceFits := by
  rw [PlaceFits, frontLength, finished,
    Header.apply_withTally Header.headerSize fun _ _ _ _ _ _ _ ↦ rfl]
  rfl

/-- The counted points of a finished draft are cut apart into the records that were written. -/
theorem Filled.pointRecords_finished {d : Draft} {points : List Point} (h : d.Filled points)
    (hcount : d.tally.count = points.length) (hplace : d.PlaceFits) :
    points.mapM d.encodePoint = .ok d.finished.pointRecords := by
  obtain ⟨front, records, rest, hbytes, hfront, hrecords⟩ := h.bytes_finished
  have hlengths : ∀ r ∈ records, r.length = d.header.recordLength.toNat :=
    forall_mem_of_mapM_eq_ok hrecords fun p _ record hrecord ↦
      (d.layout.getD .unconfigured).length_encode _ p record hrecord
  have hrecordLength : d.finished.header.recordLength = d.header.recordLength :=
    Header.apply_withTally Header.recordLength (fun _ _ _ _ _ _ _ ↦ rfl) _ _
  have hoffset : d.finished.header.offsetToPoints.toNat = front.length := by
    rw [finished, Header.apply_withTally Header.offsetToPoints fun _ _ _ _ _ _ _ ↦ rfl, h.offset,
      hfront]
    exact UInt32.toNat_ofNat_of_lt' hplace
  have hnumber : d.finished.tally.count = records.length :=
    hcount.trans (length_of_mapM_eq_ok hrecords).symm
  rw [hrecords, pointRecords, hbytes, hnumber, hrecordLength, hoffset, List.drop_left,
    Bytes.parts_flatten hlengths]

/-- The points of a finished file are those that were accepted, each packed by the layout that the
file was settled with. -/
theorem pointRecords_of_finish {memory : Bytes} {created : CreationDate} {settings : Settings}
    {vlrs : List Vlr} {d closed : Draft} {points : List Point}
    (hcreate : create memory created settings vlrs = .ok d)
    (hfinish : finish (d.writeAll points).draft = .ok () closed)
    (hplace : closed.PlaceFits) :
    (d.writeAll points).accepted.mapM closed.encodePoint = .ok closed.pointRecords ∧
    closed.header.byReturn =
      (Tally.ofPoints (d.writeAll points).accepted).byReturn.map UInt64.ofNat ∧
    ∃ format given, FormatLayout.ofNumber? settings.pointFormat = some format ∧
      closed.layout = some (.ofFormat settings.pointFormat settings.scaling
        (ExtraDim.contiguous format.baseSize given)) ∧
      (∀ dim ∈ given, dim.transform = .identity) ∧
      closed.header.recordLength.toNat = format.recordLength given := by
  obtain ⟨s, format, minor, rfl, hfilled, hformat, -, hrun⟩ :=
    exists_gathered_of_finish hcreate hfinish
  have htally : s.tally = .ofPoints (d.writeAll points).accepted := hrun.tally
  have hbyte : s.header.formatByte = settings.pointFormat := hrun.formatByte
  have hscaling : s.header.scaling = settings.scaling := hrun.scaling
  have hnumber : s.header.format = settings.pointFormat := by
    rw [← hbyte] at hformat ⊢
    exact (Header.format_eq_formatByte hformat).1
  refine ⟨?_, ?_, ?_⟩
  · have hcount : s.tally.count = (d.writeAll points).accepted.length := by
      rw [htally, Tally.count_ofPoints]
    rw [encodePoint_finished]
    exact hfilled.pointRecords_finished hcount (s.placeFits_finished.1 hplace)
  · rw [← htally]
    exact Header.byReturn_withTally _ _
  · obtain ⟨known, given, hknown, hlayout, hplain, hlength⟩ := hfilled.settled
    rw [hnumber] at hknown hlayout
    rw [hscaling] at hlayout
    refine ⟨known, given, hknown, hlayout, hplain, ?_⟩
    rwa [finished, Header.apply_withTally Header.recordLength fun _ _ _ _ _ _ _ ↦ rfl]

end LasFile.Draft
