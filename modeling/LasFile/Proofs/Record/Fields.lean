import LasFile.Proofs.Record.Pack

/-!
# The fields of a format

Which dimensions the slots of a format carry and which bytes of a record they take. The standard
slots carry the dimensions of the format, each of them once. Their bytes are those of the core, the
GPS time, the colours and the near infrared; a waveform packet is left out.
-/

namespace LasFile

open Outcome

/-! ## Dimensions -/

/-- The dimensions of the shorter core. -/
def LegacyCore.dimensions : List Dimension :=
  [.x, .y, .z, .intensity, .returnNumber, .numberOfReturns, .scanDirectionFlag, .edgeOfFlightLine,
    .classification, .classFlags, .scanAngleRank, .userData, .pointSourceId]

theorem LegacyCore.map_fst_decode (scaling : Scaling) (bs : Bytes) :
    (decode scaling bs).map Prod.fst = dimensions := by
  simp [decode, Core.decodeCommon, Core.natural, dimensions]

/-- The dimensions of the longer core. -/
def ExtendedCore.dimensions : List Dimension :=
  [.x, .y, .z, .intensity, .returnNumber, .numberOfReturns, .classFlags, .scanChannel,
    .scanDirectionFlag, .edgeOfFlightLine, .classification, .userData, .scanAngleRank,
    .pointSourceId]

theorem ExtendedCore.map_fst_decode (scaling : Scaling) (bs : Bytes) :
    (decode scaling bs).map Prod.fst = dimensions := by
  simp [decode, Core.decodeCommon, Core.natural, dimensions]

/-- The dimensions of the fields of a slot. -/
def Slot.dimensions (s : Slot) : List Dimension := (s.decode []).map Prod.fst

/-- The dimensions of a slot do not depend on its bytes. -/
theorem Section.map_fst_decode {s : Section} {slot : Slot} (h : slot ∈ s.slots) (bs : Bytes) :
    (slot.decode bs).map Prod.fst = slot.dimensions := by
  cases s <;> simp only [slots, List.mem_cons, List.not_mem_nil, or_false, List.mem_map] at h
  case legacyCore scaling =>
    subst h
    exact (LegacyCore.map_fst_decode scaling bs).trans (LegacyCore.map_fst_decode scaling []).symm
  case extendedCore scaling =>
    subst h
    exact (ExtendedCore.map_fst_decode scaling bs).trans
      (ExtendedCore.map_fst_decode scaling []).symm
  case color start => obtain rfl | rfl | rfl := h <;> rfl
  case extraDims dims =>
    obtain ⟨dim, -, rfl⟩ := h
    rfl
  all_goals
    subst h
    rfl

namespace RecordLayout

theorem map_fst_fields (l : RecordLayout) (record : Bytes) :
    (l.fields record).map Prod.fst = l.slots.flatMap Slot.dimensions := by
  rw [fields, List.map_flatMap, List.flatMap_def, List.flatMap_def]
  congr 1
  apply List.map_congr_left
  intro slot hslot
  obtain ⟨s, -, hmem⟩ := List.mem_flatMap.1 hslot
  exact Section.map_fst_decode hmem _

end RecordLayout

namespace FormatLayout

/-- The slot of the core. -/
def coreSlot (l : FormatLayout) (scaling : Scaling) : Slot :=
  if l.extended then .extendedCore scaling else .legacyCore scaling

/-- The slots that only some formats have. -/
def optionalSlots (l : FormatLayout) : List Slot :=
  ((l.gpsTime.map Section.gpsTime).toList ++ (l.color.map Section.color).toList ++
    (l.nearInfrared.map Section.nearInfrared).toList).flatMap Section.slots

/-- The dimensions of the core. -/
def coreDimensions (l : FormatLayout) : List Dimension :=
  if l.extended then ExtendedCore.dimensions else LegacyCore.dimensions

/-- The grid is not part of what the core carries. -/
theorem map_fst_coreSlot (l : FormatLayout) (scaling : Scaling) (bs : Bytes) :
    ((l.coreSlot scaling).decode bs).map Prod.fst = l.coreDimensions := by
  unfold coreSlot coreDimensions
  cases l.extended
  · exact LegacyCore.map_fst_decode scaling bs
  · exact ExtendedCore.map_fst_decode scaling bs

/-- The slots of a format carry its dimensions, each of them once. -/
theorem dimensions_perm : ∀ l ∈ all,
    (l.coreDimensions ++ l.optionalSlots.flatMap Slot.dimensions).Perm l.dimensions ∧
      l.dimensions.Nodup := by
  decide

end FormatLayout

namespace RecordLayout

theorem isConfigured_ofFormat {number : UInt8} {format : FormatLayout}
    (hformat : FormatLayout.ofNumber? number = some format) (scaling : Scaling)
    (dims : List ExtraDim) : (ofFormat number scaling dims).isConfigured = true := by
  rw [ofFormat, hformat]
  rfl

/-- The slots of extra dimensions stand behind those of the format. -/
theorem slots_ofFormat {number : UInt8} {format : FormatLayout}
    (hformat : FormatLayout.ofNumber? number = some format) (scaling : Scaling)
    (dims : List ExtraDim) : (ofFormat number scaling dims).slots =
      format.coreSlot scaling :: (format.optionalSlots ++ dims.map ExtraDim.slot) := by
  have hcore : (if format.extended = true then Section.extendedCore scaling
      else .legacyCore scaling).slots = [format.coreSlot scaling] := by
    unfold FormatLayout.coreSlot
    cases format.extended <;> rfl
  have hdims : (if dims.isEmpty then [] else [Section.extraDims dims]).flatMap Section.slots =
      dims.map ExtraDim.slot := by
    cases dims <;> simp [Section.slots]
  simp only [slots, ofFormat, hformat, sections, sectionsOf, FormatLayout.optionalSlots, hcore,
    hdims, List.flatMap_append, List.flatMap_cons, List.append_assoc, List.cons_append,
    List.nil_append]

/-- The fields of a record: those of the core, of what else the format has, and of the extra
dimensions. -/
theorem map_fst_fields_ofFormat {number : UInt8} {format : FormatLayout}
    (hformat : FormatLayout.ofNumber? number = some format) (scaling : Scaling)
    (dims : List ExtraDim) (record : Bytes) :
    ((ofFormat number scaling dims).fields record).map Prod.fst =
      (format.coreDimensions ++ format.optionalSlots.flatMap Slot.dimensions) ++
        dims.map ExtraDim.id := by
  have hcore : (format.coreSlot scaling).dimensions = format.coreDimensions :=
    format.map_fst_coreSlot scaling []
  have hdims : (dims.map ExtraDim.slot).flatMap Slot.dimensions = dims.map ExtraDim.id := by
    induction dims <;> simp_all [Slot.dimensions, ExtraDim.slot]
  rw [map_fst_fields, slots_ofFormat hformat, List.flatMap_cons, List.flatMap_append, hcore, hdims,
    ← List.append_assoc]

/-- A record has the dimensions of its format and the extra dimensions, and no others. -/
theorem mem_map_fst_fields {number : UInt8} {format : FormatLayout}
    (hformat : FormatLayout.ofNumber? number = some format) (scaling : Scaling)
    (dims : List ExtraDim) (record : Bytes) (d : Dimension) :
    d ∈ ((ofFormat number scaling dims).fields record).map Prod.fst ↔
      d ∈ format.dimensions ∨ d ∈ dims.map ExtraDim.id := by
  have hperm := (FormatLayout.dimensions_perm format (List.mem_of_getElem? hformat)).1
  rw [map_fst_fields_ofFormat hformat, List.mem_append, hperm.mem_iff]

/-- Extra dimensions of other names than the standard ones and each other are fields of their
own. -/
theorem nodup_map_fst_fields {number : UInt8} {format : FormatLayout}
    (hformat : FormatLayout.ofNumber? number = some format) (scaling : Scaling)
    {dims : List ExtraDim} (hdistinct : (dims.map ExtraDim.id).Nodup)
    (hother : ∀ dim ∈ dims, dim.id ∉ format.dimensions) (record : Bytes) :
    (((ofFormat number scaling dims).fields record).map Prod.fst).Nodup := by
  obtain ⟨hperm, hnodup⟩ := FormatLayout.dimensions_perm format (List.mem_of_getElem? hformat)
  rw [map_fst_fields_ofFormat hformat, List.nodup_append]
  refine ⟨hperm.nodup_iff.2 hnodup, hdistinct, fun d hd e he heq ↦ ?_⟩
  obtain ⟨dim, hdim, rfl⟩ := List.mem_map.1 he
  exact hother dim hdim (heq ▸ hperm.mem_iff.1 hd)

end RecordLayout

/-! ## Places -/

/-- A run of bytes of a record. -/
structure ByteRange where
  start : Nat
  length : Nat
  deriving DecidableEq, Repr

namespace ByteRange

/-- Whether a place lies in the run. -/
def Holds (r : ByteRange) (i : Nat) : Prop := r.start ≤ i ∧ i < r.start + r.length

instance (r : ByteRange) (i : Nat) : Decidable (r.Holds i) :=
  inferInstanceAs (Decidable (_ ∧ _))

/-- Whether no place lies in both runs. A run without bytes lies apart from every other. -/
def Apart (a b : ByteRange) : Prop := ∀ i, a.Holds i → ¬b.Holds i

theorem apart_iff {a b : ByteRange} : a.Apart b ↔ a.length = 0 ∨ b.length = 0 ∨
    a.start + a.length ≤ b.start ∨ b.start + b.length ≤ a.start := by
  unfold Apart Holds
  constructor
  · intro h
    -- The larger of the two starts lies in both runs if neither is empty nor ends before it.
    have hstart := h (max a.start b.start)
    omega
  · intro h i hfirst hsecond
    omega

theorem apart_of_le {a b : ByteRange} (h : a.start + a.length ≤ b.start) : a.Apart b :=
  apart_iff.2 (.inr (.inr (.inl h)))

instance (a b : ByteRange) : Decidable (a.Apart b) := decidable_of_iff' _ apart_iff

end ByteRange

/-- Bytes of the core. -/
def FormatLayout.coreSize (l : FormatLayout) : Nat :=
  if l.extended then ExtendedCore.size else LegacyCore.size

theorem FormatLayout.coreSize_le_baseSize : ∀ l ∈ all, l.coreSize ≤ l.baseSize := by
  decide

theorem FormatLayout.coreSlot_range (l : FormatLayout) (scaling : Scaling) :
    (l.coreSlot scaling).start = 0 ∧ (l.coreSlot scaling).width = l.coreSize := by
  unfold coreSlot coreSize
  cases l.extended <;> exact ⟨rfl, rfl⟩

/-- The runs behind the core: GPS time, colours and near infrared. -/
def FormatLayout.optionalRanges (l : FormatLayout) : List ByteRange :=
  (l.gpsTime.map fun start ↦ ⟨start, 8⟩).toList ++
    (l.color.map fun start ↦ ⟨start, 6⟩).toList ++
    (l.nearInfrared.map fun start ↦ ⟨start, 2⟩).toList

/-- The runs of a format. -/
def FormatLayout.ranges (l : FormatLayout) : List ByteRange := ⟨0, l.coreSize⟩ :: l.optionalRanges

/-- The run of an extra dimension. -/
def ExtraDim.range (dim : ExtraDim) : ByteRange := ⟨dim.start, dim.size⟩

/-- The run of a slot. -/
def Slot.range (s : Slot) : ByteRange := ⟨s.start, s.width⟩

/-- What was written for a slot stands in its run if all later slots keep away from it. -/
theorem Slot.slice_patch_parts {front back : List Slot} {s : Slot} {p : Point}
    {parts : List (Nat × Bytes)} {buffer : Bytes}
    (hparts : (front ++ s :: back).mapM (·.part p) = .ok parts)
    (hfits : ∀ slot ∈ front ++ s :: back, slot.Exact ∧ slot.start + slot.width ≤ buffer.length)
    (hapart : ∀ later ∈ back, s.range.Apart later.range) :
    s.encode p = .ok ((buffer.patch parts).slice s.start s.width) := by
  have hwithin : ∀ part ∈ parts, part.1 + part.2.length ≤ buffer.length := by
    refine forall_mem_of_mapM_eq_ok hparts fun slot hslot part hpart ↦ ?_
    obtain ⟨bs, hbs, rfl⟩ := map_eq_ok.1 hpart
    rw [(hfits slot hslot).1 p bs hbs]
    exact (hfits slot hslot).2
  obtain ⟨before, rest, -, hrest, rfl⟩ := mapM_append_eq_ok.1 hparts
  obtain ⟨_, after, hhere, hafter, rfl⟩ := mapM_cons_eq_ok.1 hrest
  obtain ⟨part, hpart, rfl⟩ := map_eq_ok.1 hhere
  obtain ⟨hbefore, hothers⟩ := List.forall_mem_append.1 hwithin
  obtain ⟨hplace, hlaters⟩ := List.forall_mem_cons.1 hothers
  have hlength : part.length = s.width := (hfits s (by simp)).1 p part hpart
  have hlater : ∀ later ∈ after, ∀ i < part.length,
      s.start + i < later.1 ∨ later.1 + later.2.length ≤ s.start + i := by
    refine forall_mem_of_mapM_eq_ok hafter fun slot hslot later hlater i hi ↦ ?_
    obtain ⟨bs, hbs, rfl⟩ := map_eq_ok.1 hlater
    have hwidth : bs.length = slot.width := (hfits slot (by simp [hslot])).1 p bs hbs
    have hplaces := hapart slot hslot (s.start + i)
    simp only [ByteRange.Holds, Slot.range] at hplaces
    show s.start + i < slot.start ∨ slot.start + bs.length ≤ s.start + i
    omega
  have hsame := Bytes.length_patch hbefore
  rw [Bytes.patch_append, ← hlength,
    Bytes.slice_patch_cons (by rwa [hsame]) (by rwa [hsame]) hlater, hpart]

namespace RecordLayout

/-- A packed record holds what was written for a slot if all later slots keep away from it. -/
theorem slice_of_pack {l : RecordLayout} {front back : List Slot} {s : Slot}
    (hslots : l.slots = front ++ s :: back) (hapart : ∀ later ∈ back, s.range.Apart later.range)
    {p : Point} {buffer packed : Bytes} {configured : Bool}
    (hroom : l.recordLength ≤ buffer.length) (hpack : l.pack p buffer = .ok configured packed) :
    s.encode p = .ok (packed.slice s.start s.width) := by
  obtain ⟨parts, hparts, -, rfl⟩ := (pack_eq_ok hroom).1 hpack
  rw [RecordLayout.parts, hslots] at hparts
  refine Slot.slice_patch_parts hparts (fun slot hslot ↦ ?_) hapart
  rw [← hslots] at hslot
  exact ⟨exact_of_mem_slots hslot, end_le_of_mem_slots hslot hroom⟩

/-- The slots behind the core take the bytes of the runs behind the core. -/
theorem exists_optionalSlot_holds (format : FormatLayout) (i : Nat) :
    (∃ s ∈ format.optionalSlots, s.range.Holds i) ↔
      ∃ r ∈ format.optionalRanges, r.Holds i := by
  have hcolor (start : Nat) : (∃ s ∈ (Section.color start).slots, s.range.Holds i) ↔
      ByteRange.Holds ⟨start, 6⟩ i := by
    simp only [Section.slots, List.mem_cons, List.not_mem_nil, or_false, exists_eq_or_imp,
      exists_eq_left, Slot.range, Slot.word, ByteRange.Holds]
    omega
  have hgpsTime (start : Nat) : (∃ s ∈ (Section.gpsTime start).slots, s.range.Holds i) ↔
      ByteRange.Holds ⟨start, 8⟩ i := by
    simp [Section.slots, Slot.range, Slot.gpsTime]
  have hnearInfrared (start : Nat) :
      (∃ s ∈ (Section.nearInfrared start).slots, s.range.Holds i) ↔
      ByteRange.Holds ⟨start, 2⟩ i := by
    simp [Section.slots, Slot.range, Slot.word]
  simp only [FormatLayout.optionalSlots, FormatLayout.optionalRanges]
  cases format.gpsTime <;> cases format.color <;> cases format.nearInfrared <;>
    simp only [List.append_nil, List.nil_append, List.cons_append, List.flatMap_cons,
      List.flatMap_nil, Option.map_none, Option.map_some, Option.toList_none, Option.toList_some,
      List.mem_append, List.mem_cons, List.not_mem_nil, or_and_right, exists_or, hcolor, hgpsTime,
      hnearInfrared, exists_eq_left, or_false, false_and, exists_false]

/-- The slots of a layout take the bytes of the format's runs and of the extra dimensions. -/
theorem exists_slot_holds {number : UInt8} {format : FormatLayout}
    (hformat : FormatLayout.ofNumber? number = some format) (scaling : Scaling)
    (dims : List ExtraDim) (i : Nat) :
    (∃ s ∈ (ofFormat number scaling dims).slots, s.range.Holds i) ↔
      ∃ r ∈ format.ranges ++ dims.map ExtraDim.range, r.Holds i := by
  have hcore : (format.coreSlot scaling).range = ⟨0, format.coreSize⟩ := by
    rw [Slot.range, (format.coreSlot_range scaling).1, (format.coreSlot_range scaling).2]
  have hdims : (∃ s ∈ dims.map ExtraDim.slot, s.range.Holds i) ↔
      ∃ r ∈ dims.map ExtraDim.range, r.Holds i := by
    simp only [List.mem_map]
    constructor
    · rintro ⟨_, ⟨dim, hdim, rfl⟩, h⟩
      exact ⟨dim.range, ⟨dim, hdim, rfl⟩, h⟩
    · rintro ⟨_, ⟨dim, hdim, rfl⟩, h⟩
      exact ⟨dim.slot, ⟨dim, hdim, rfl⟩, h⟩
  simp only [slots_ofFormat hformat, FormatLayout.ranges, List.cons_append, List.mem_cons,
    List.mem_append, or_and_right, exists_or, exists_eq_left, hcore, exists_optionalSlot_holds,
    hdims]

end RecordLayout

end LasFile
