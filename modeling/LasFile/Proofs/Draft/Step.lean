import LasFile.Draft
import LasFile.Proofs.Byte.Placement
import LasFile.Proofs.Outcome
import LasFile.Proofs.Stateful

/-!
# Steps of a draft

What each operation on a draft can do, failures included. A start either leaves the draft alone, or
writes header and records and settles the layout, or gives up between two records with the header
already changed. A draft whose layout is settled takes a point or leaves everything as it was.
-/

namespace LasFile.Draft

open Outcome

/-! ## Preparing -/

/-- What is prepared for a start. -/
theorem prepare_eq_ok {dims : List ExtraDim} {d prepared : Draft} :
    prepare dims d = .ok prepared ↔ ∃ format records,
      FormatLayout.ofNumber? d.header.format = some format ∧
      format.recordLength dims ≤ maxRecordLength ∧ dimRecords dims = .ok records ∧
      prepared = { d with
        vlrs := d.vlrs ++ records
        header := headerFor d.header (d.vlrs ++ records) (format.recordLength dims) } := by
  simp only [prepare, bind_eq_ok, pure_eq_ok, Draft.format, recordLength]
  constructor
  · rintro ⟨format, hformat, length, hlength, records, hrecords, rfl⟩
    split at hformat
    next => cases hformat
    next known hknown =>
      cases hformat
      split at hlength
      next => cases hlength
      next hfits =>
        cases hlength
        exact ⟨format, records, hknown, Nat.not_lt.1 hfits, hrecords, rfl⟩
  · rintro ⟨format, records, hformat, hfits, hrecords, rfl⟩
    refine ⟨format, ?_, format.recordLength dims, ?_, records, hrecords, rfl⟩
    · rw [hformat]
    · rw [if_neg (Nat.not_lt.2 hfits)]

/-! ## In front of the points -/

/-- Bytes in front of the points. -/
def frontLength (d : Draft) : Nat := d.header.headerSize.toNat + Vlr.totalSize .short d.vlrs

/-- The place of the points fits the four bytes of its field. A start sums up the lengths of the
header and the records in thirty-two bits, and the starts in which this sum does not overflow are
those that leave a draft with this property. -/
def PlaceFits (d : Draft) : Prop := d.frontLength < UInt32.size

instance (d : Draft) : Decidable d.PlaceFits := inferInstanceAs (Decidable (_ < _))

/-! ## Starting -/

/-- The draft once its header and the bytes of its records are written. -/
def started (d : Draft) (dims : List ExtraDim) (blocks : List Bytes) : Draft :=
  { d with
    sink := .holding d.sink.bytes (d.header.encode ++ blocks.flatten)
    layout := some (.ofFormat d.header.format d.header.scaling dims) }

theorem writeVlr_ok {v : Vlr} {part : Bytes} (h : v.encode .short = .ok part) (d : Draft) :
    writeVlr v d = .ok () { d with sink := d.sink.write part } := by
  simp only [writeVlr, h]
  rfl

theorem writeVlr_error {v : Vlr} {e : Error} (h : v.encode .short = .error e) (d : Draft) :
    writeVlr v d = .error e d := by
  simp only [writeVlr, h]
  rfl

/-- Records are written one after the other. -/
theorem forM_writeVlr_ok {vlrs : List Vlr} {blocks : List Bytes}
    (h : vlrs.mapM (·.encode .short) = .ok blocks) {d : Draft} {memory content : Bytes}
    (hsink : d.sink = .holding memory content) : vlrs.forM writeVlr d =
      .ok () { d with sink := .holding memory (content ++ blocks.flatten) } := by
  induction vlrs generalizing d content blocks with
  | nil =>
    obtain rfl := mapM_nil_eq_ok.1 h
    rw [List.flatten_nil, List.append_nil, ← hsink]
    rfl
  | cons v vs ih =>
    obtain ⟨part, parts, hpart, hparts, rfl⟩ := mapM_cons_eq_ok.1 h
    have hnext : d.sink.write part = .holding memory (content ++ part) := by
      rw [hsink, Sink.write_holding]
    rw [Stateful.forM_cons_of_ok writeVlr (writeVlr_ok hpart d), List.flatten_cons,
      ← List.append_assoc]
    exact ih hparts hnext

/-- A record that is too long leaves those in front of it written. -/
theorem forM_writeVlr_error {vlrs : List Vlr} {e : Error}
    (h : vlrs.mapM (·.encode .short) = .error e) (d : Draft) :
    ∃ sink, vlrs.forM writeVlr d = .error e { d with sink := sink } := by
  induction vlrs generalizing d with
  | nil => cases h
  | cons v vs ih =>
    rcases mapM_cons_eq_error.1 h with hv | ⟨part, hpart, hvs⟩
    · exact ⟨d.sink, Stateful.forM_cons_of_error writeVlr (writeVlr_error hv d) vs⟩
    · rw [Stateful.forM_cons_of_ok writeVlr (writeVlr_ok hpart d)]
      exact ih hvs { d with sink := d.sink.write part }

theorem start_of_prepare_error {dims : List ExtraDim} {d : Draft} {e : Error}
    (h : prepare dims d = .error e) : start dims d = .error e d := by
  unfold start
  rw [Stateful.get_bind, h]
  rfl

/-- A start that goes through. -/
theorem start_of_ok {dims : List ExtraDim} {d prepared : Draft} {blocks : List Bytes}
    (hprepared : prepare dims d = .ok prepared)
    (hblocks : prepared.vlrs.mapM (·.encode .short) = .ok blocks) :
    start dims d = .ok () (prepared.started dims blocks) := by
  have hheader : (prepared.sink.seek 0).write prepared.header.encode =
      .holding prepared.sink.bytes prepared.header.encode := by
    rw [Sink.seek_zero, Sink.write_holding, List.nil_append]
  have hwritten : prepared.vlrs.forM writeVlr
      { prepared with sink := (prepared.sink.seek 0).write prepared.header.encode } = _ :=
    forM_writeVlr_ok hblocks hheader
  rw [start, Stateful.get_bind, hprepared]
  simp only [Stateful.set_bind, writeHeader, Stateful.modify_bind, Stateful.get_bind,
    Stateful.bind_of_ok hwritten, Stateful.modify_apply]
  rfl

/-- A start that gives up between two records. -/
theorem start_of_error {dims : List ExtraDim} {d prepared : Draft} {e : Error}
    (hprepared : prepare dims d = .ok prepared)
    (hblocks : prepared.vlrs.mapM (·.encode .short) = .error e) :
    ∃ sink, start dims d = .error e { prepared with sink := sink } := by
  obtain ⟨sink, hwritten⟩ := forM_writeVlr_error hblocks
    { prepared with sink := (prepared.sink.seek 0).write prepared.header.encode }
  refine ⟨sink, ?_⟩
  rw [start, Stateful.get_bind, hprepared]
  simp only [Stateful.set_bind, writeHeader, Stateful.modify_bind, Stateful.get_bind,
    Stateful.bind_of_error hwritten]

/-- Everything that a start can do. -/
theorem start_cases (dims : List ExtraDim) (d : Draft) :
    (∃ e, prepare dims d = .error e ∧ start dims d = .error e d) ∨
    (∃ prepared blocks, prepare dims d = .ok prepared ∧
      prepared.vlrs.mapM (·.encode .short) = .ok blocks ∧
      start dims d = .ok () (prepared.started dims blocks)) ∨
    (∃ prepared e sink, prepare dims d = .ok prepared ∧
      prepared.vlrs.mapM (·.encode .short) = .error e ∧
      start dims d = .error e { prepared with sink := sink }) := by
  cases hprepared : prepare dims d with
  | error e => exact .inl ⟨e, rfl, start_of_prepare_error hprepared⟩
  | ok prepared =>
    cases hblocks : prepared.vlrs.mapM (·.encode .short) with
    | ok blocks => exact .inr (.inl ⟨prepared, blocks, rfl, hblocks, start_of_ok hprepared hblocks⟩)
    | error e =>
      obtain ⟨sink, hstart⟩ := start_of_error hprepared hblocks
      exact .inr (.inr ⟨prepared, e, sink, rfl, hblocks, hstart⟩)

theorem start_eq_ok {dims : List ExtraDim} {d s : Draft} : start dims d = .ok () s ↔
    ∃ prepared blocks, prepare dims d = .ok prepared ∧
      prepared.vlrs.mapM (·.encode .short) = .ok blocks ∧ s = prepared.started dims blocks := by
  constructor
  · intro h
    rcases start_cases dims d with ⟨e, -, hstart⟩ | ⟨prepared, blocks, hprepared, hblocks, hstart⟩ |
      ⟨prepared, e, sink, -, -, hstart⟩
    · cases hstart.symm.trans h
    · cases hstart.symm.trans h
      exact ⟨prepared, blocks, hprepared, hblocks, rfl⟩
    · cases hstart.symm.trans h
  · rintro ⟨prepared, blocks, hprepared, hblocks, rfl⟩
    exact start_of_ok hprepared hblocks

/-! ## Adding a point -/

/-- The dimensions that a point settles the layout with. -/
def dimsOf (d : Draft) (p : Point) : List ExtraDim :=
  ExtraDim.relocate (((FormatLayout.ofNumber? d.header.format).map (·.baseSize)).getD 0)
    (Selection.sampled p d.header.format)

/-- The draft with a point's record behind the others. -/
def accept (d : Draft) (p : Point) (record : Bytes) : Draft :=
  { d with sink := d.sink.write record, tally := d.tally.add p }

/-- Settling the layout by a point is a start, which itself asks for a format that is known. -/
theorem startWith_eq (p : Point) (d : Draft) : startWith p d = start (d.dimsOf p) d := by
  unfold startWith dimsOf
  rw [Stateful.get_bind]
  cases hnumber : FormatLayout.ofNumber? d.header.format with
  | none =>
    have hformat : d.format = .error (.pointFormat d.header.format) := by
      simp only [format, hnumber]
    have hprepare : prepare (ExtraDim.relocate 0 (Selection.sampled p d.header.format)) d =
        .error (.pointFormat d.header.format) := by
      simp only [prepare, hformat, Bind.bind, Except.bind]
    simp only [hformat]
    exact (start_of_prepare_error hprepare).symm
  | some format =>
    have hformat : d.format = .ok format := by simp only [Draft.format, hnumber]
    simp only [hformat]
    rfl

theorem ensureStarted_of_layout {d : Draft} {layout : RecordLayout} (h : d.layout = some layout)
    (begin : EStateM Error Draft Unit) : ensureStarted begin d = .ok () d := by
  unfold ensureStarted
  rw [Stateful.get_bind, h]
  rfl

theorem ensureStarted_of_open {d : Draft} (h : d.layout = none)
    (begin : EStateM Error Draft Unit) : ensureStarted begin d = begin d := by
  unfold ensureStarted
  rw [Stateful.get_bind, h]
  rfl

/-- A draft whose layout is settled takes a point, or is left as it was. -/
theorem writePoint_of_layout {d : Draft} {layout : RecordLayout} (h : d.layout = some layout)
    (p : Point) : writePoint p d =
      match layout.encode d.header.recordLength.toNat p with
      | .ok record => .ok () (d.accept p record)
      | .error e => .error e d := by
  unfold writePoint
  rw [Stateful.bind_of_ok (ensureStarted_of_layout h _), Stateful.get_bind, encodePoint,
    h, Option.getD_some]
  cases layout.encode d.header.recordLength.toNat p <;> rfl

/-- A draft whose layout is open is started first. -/
theorem writePoint_of_open {d : Draft} (h : d.layout = none) (p : Point) : writePoint p d =
    match start (d.dimsOf p) d with
    | .ok () s => writePoint p s
    | .error e s => .error e s := by
  have hbegin : ensureStarted (startWith p) d = start (d.dimsOf p) d :=
    (ensureStarted_of_open h _).trans (startWith_eq p d)
  cases hstart : start (d.dimsOf p) d with
  | error e s => exact Stateful.bind_of_error (hbegin.trans hstart) _
  | ok _ s =>
    obtain ⟨prepared, blocks, -, -, rfl⟩ := start_eq_ok.1 hstart
    have hsettled :=
      ensureStarted_of_layout (d := prepared.started (d.dimsOf p) blocks) rfl (startWith p)
    simp only [writePoint, Stateful.bind_of_ok (hbegin.trans hstart), Stateful.bind_of_ok hsettled]

/-- A point that an open draft can be started with and that can be packed then is accepted. -/
theorem writePoint_of_start_ok {d prepared : Draft} (h : d.layout = none) {p : Point}
    {dims : List ExtraDim} (hdims : d.dimsOf p = dims) {blocks : List Bytes} {record : Bytes}
    (hprepared : prepare dims d = .ok prepared)
    (hblocks : prepared.vlrs.mapM (·.encode .short) = .ok blocks)
    (hencode : (prepared.started dims blocks).encodePoint p = .ok record) :
    writePoint p d = .ok () ((prepared.started dims blocks).accept p record) := by
  let layout := RecordLayout.ofFormat prepared.header.format prepared.header.scaling dims
  have hlayout : (prepared.started dims blocks).layout = some layout := rfl
  have hrecord : layout.encode (prepared.started dims blocks).header.recordLength.toNat p =
      .ok record := hencode
  rw [writePoint_of_open h, hdims, start_of_ok hprepared hblocks]
  simp only [writePoint_of_layout hlayout, hrecord]

/-! ## Closing -/

/-- The draft once the header is written with counts and bounds. -/
def finished (d : Draft) : Draft :=
  { d with
    header := d.header.withTally d.tally
    sink := (d.sink.seek 0).write (d.header.withTally d.tally).encode }

theorem finish_of_layout {d : Draft} {layout : RecordLayout} (h : d.layout = some layout) :
    finish d = .ok () d.finished := by
  unfold finish
  rw [Stateful.bind_of_ok (ensureStarted_of_layout h _)]
  rfl

/-- A draft whose layout is open is started without extra dimensions. -/
theorem finish_of_open {d : Draft} (h : d.layout = none) : finish d =
    match start [] d with
    | .ok () s => finish s
    | .error e s => .error e s := by
  have hbegin : ensureStarted (start []) d = start [] d := ensureStarted_of_open h _
  cases hstart : start [] d with
  | error e s => rw [finish, Stateful.bind_of_error (hbegin.trans hstart)]
  | ok _ s =>
    obtain ⟨prepared, blocks, -, -, rfl⟩ := start_eq_ok.1 hstart
    have hsettled := ensureStarted_of_layout (d := prepared.started [] blocks) rfl (start [])
    simp only [finish, Stateful.bind_of_ok (hbegin.trans hstart), Stateful.bind_of_ok hsettled]

/-- The header of the finished file. -/
theorem close_of_layout {d : Draft} {layout : RecordLayout} (h : d.layout = some layout) :
    d.close = .ok ((d.sink.seek 0).write (d.header.withTally d.tally).encode).bytes := by
  rw [close, finish_of_layout h]
  rfl

theorem close_of_open {d : Draft} (h : d.layout = none) : d.close =
    match start [] d with
    | .ok () s => s.close
    | .error e _ => .error e := by
  rw [close, finish_of_open h]
  cases start [] d <;> rfl

/-! ## New drafts -/

/-- The draft of a new file before anything is written. -/
def origin (memory : Bytes) (created : CreationDate) (settings : Settings) (vlrs : List Vlr)
    (minor : UInt8) : Draft :=
  blank memory (.create created settings.pointFormat minor settings.scaling) vlrs

/-- A new draft is started, unless its dimensions are to be taken from the first point. -/
theorem create_eq_ok {memory : Bytes} {created : CreationDate} {settings : Settings}
    {vlrs : List Vlr} {d : Draft} (h : create memory created settings vlrs = .ok d) :
    ∃ format minor selection, FormatLayout.ofNumber? settings.pointFormat = some format ∧
      settings.minorToWrite = .ok minor ∧ settings.selection true = .ok selection ∧
      match selection with
      | .all => d = origin memory created settings vlrs minor
      | .only dims => start (ExtraDim.relocate format.baseSize dims)
          (origin memory created settings vlrs minor) = .ok () d := by
  simp only [create] at h
  split at h
  next => cases h
  next =>
    cases hformat : FormatLayout.ofNumber? settings.pointFormat with
    | none =>
      rw [hformat] at h
      cases h
    | some format =>
      simp only [hformat, bind_eq_ok] at h
      obtain ⟨minor, hminor, selection, hselection, h⟩ := h
      refine ⟨format, minor, selection, rfl, hminor, hselection, ?_⟩
      cases selection with
      | all => exact (pure_eq_ok.1 h).symm
      | only dims =>
        simp only at h ⊢
        split at h
        next d' hstart =>
          obtain rfl := pure_eq_ok.1 h
          exact hstart
        next => cases h

end LasFile.Draft
