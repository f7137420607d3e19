import LasFile.Proofs.Record.IntegerField

/-!
# What a record takes from a point

A record takes less from a point than its values. A dimension that a format stores from a double
takes the double of the value alone. All other numbers also take the nearest integer, without which
they are refused. Points that agree in this are packed alike, whatever the buffer.
-/

namespace LasFile

open Outcome

/-! ## Values -/

namespace Value

variable {v w : Value}

/-- Whether no scalar tells two values apart. -/
structure Alike (v w : Value) : Prop where
  toDouble : v.toDouble = w.toDouble
  nearestInt? : v.nearestInt? = w.nearestInt?

namespace Alike

theorem refl (v : Value) : v.Alike v := ⟨rfl, rfl⟩

variable (h : v.Alike w) (dimension : String)

include h

theorem integer_eq (low high : Int) :
    v.integer dimension low high = w.integer dimension low high := by
  unfold integer
  rw [h.toDouble, h.nearestInt?]

theorem natural_eq (width : Width) : v.natural dimension width = w.natural dimension width :=
  congrArg _ (h.integer_eq dimension _ _)

theorem whole_eq (width : Width) : v.whole dimension width = w.whole dimension width :=
  h.integer_eq dimension _ _

theorem encode_eq (type : Scalar) : v.encode type dimension = w.encode type dimension := by
  cases type with
  | signed width => rw [encode, encode, h.whole_eq]
  | unsigned width => rw [encode, encode, h.natural_eq]
  | single => rw [encode, encode, h.toDouble]
  | double => rw [encode, encode, h.toDouble]

end Alike

/-- A small whole number of one kind is like that of another. -/
theorem IsWhole.alike {n : Nat} (hv : v.IsWhole n) (hw : w.IsWhole n) (hn : n < 16) :
    v.Alike w where
  toDouble := (hv.toDouble_eq hn).trans (hw.toDouble_eq hn).symm
  nearestInt? := (hv.nearestInt?_eq hn).trans (hw.nearestInt?_eq hn).symm

end Value

/-! ## Cores -/

/-- The standard dimensions that a format stores from a double. -/
def FormatLayout.doubles (l : FormatLayout) : List Dimension :=
  [.x, .y, .z, .gpsTime] ++ if l.extended then [.scanAngleRank] else []

/-- Whether a format takes the same from two points: the double of every dimension, and the nearest
integer of those that are not stored from a double. -/
structure FormatLayout.Agrees (l : FormatLayout) (p q : Point) : Prop where
  number : ∀ d ∈ l.dimensions, p.number d = q.number d
  alike : ∀ d ∈ l.dimensions, d ∉ l.doubles → (p.valueOrZero d).Alike (q.valueOrZero d)

namespace Core

variable {p q : Point} {d : Dimension}

theorem coordinate_congr (h : p.number d = q.number d) (t : Transform) :
    coordinate p d t = coordinate q d t := by
  rw [coordinate, coordinate, h]

theorem byte_congr (h : (p.valueOrZero d).Alike (q.valueOrZero d)) : byte p d = byte q d :=
  h.natural_eq _ _

theorem word_congr (h : (p.valueOrZero d).Alike (q.valueOrZero d)) : word p d = word q d :=
  h.natural_eq _ _

end Core

namespace LegacyCore

/-- The dimensions of the shorter core that are stored from the nearest integer. -/
def wholes : List Dimension := .scanAngleRank :: integerFields.map IntegerField.dimension

theorem encode_congr {p q : Point} (hnumber : ∀ d ∈ [.x, .y, .z], p.number d = q.number d)
    (halike : ∀ d ∈ wholes, (p.valueOrZero d).Alike (q.valueOrZero d)) (scaling : Scaling) :
    encode scaling p = encode scaling q := by
  simp only [wholes, integerFields, List.map_cons, List.map_nil, List.forall_mem_cons,
    List.not_mem_nil, false_implies, implies_true, and_true] at hnumber halike
  obtain ⟨hx, hy, hz⟩ := hnumber
  obtain ⟨hangle, hintensity, hfirst, hsecond, hdirection, hedge, hclass, hflags, huser,
    hsource⟩ := halike
  simp only [encode, Core.coordinate_congr hx, Core.coordinate_congr hy, Core.coordinate_congr hz,
    Core.word_congr hintensity, Core.byte_congr hfirst, Core.byte_congr hsecond,
    Core.byte_congr hdirection, Core.byte_congr hedge, Core.byte_congr hclass,
    Core.byte_congr hflags, hangle.whole_eq, Core.byte_congr huser, Core.word_congr hsource]

/-- A core that takes a point rounds all of these to an integer. -/
theorem nearestInt?_of_encode {scaling : Scaling} {p : Point} {part : Bytes}
    (h : encode scaling p = .ok part) :
    ∀ d ∈ wholes, ∃ n, (p.valueOrZero d).nearestInt? = some n := by
  rw [wholes, List.forall_mem_cons]
  constructor
  · simp only [encode, bind_eq_ok] at h
    obtain ⟨_, -, _, -, _, -, _, -, _, -, _, -, _, -, _, -, _, -, _, -, n, hn, -⟩ := h
    exact ⟨n, (Value.whole_eq_ok.1 hn).1⟩
  · intro d hd
    obtain ⟨f, hf, rfl⟩ := List.mem_map.1 hd
    obtain ⟨n, hn, -⟩ := read_encode h f hf
    exact ⟨n, hn.1⟩

end LegacyCore

namespace ExtendedCore

/-- The dimensions of the longer core that are stored from the nearest integer. -/
def wholes : List Dimension := integerFields.map IntegerField.dimension

theorem encode_congr {p q : Point}
    (hnumber : ∀ d ∈ [.x, .y, .z, .scanAngleRank], p.number d = q.number d)
    (halike : ∀ d ∈ wholes, (p.valueOrZero d).Alike (q.valueOrZero d)) (scaling : Scaling) :
    encode scaling p = encode scaling q := by
  simp only [wholes, integerFields, List.map_cons, List.map_nil, List.forall_mem_cons,
    List.not_mem_nil, false_implies, implies_true, and_true] at hnumber halike
  obtain ⟨hx, hy, hz, hangle⟩ := hnumber
  obtain ⟨hintensity, hfirst, hsecond, hflags, hchannel, hdirection, hedge, hclass, huser,
    hsource⟩ := halike
  simp only [encode, angle, hangle, Core.coordinate_congr hx, Core.coordinate_congr hy,
    Core.coordinate_congr hz, Core.word_congr hintensity, Core.byte_congr hfirst,
    Core.byte_congr hsecond, Core.byte_congr hflags, Core.byte_congr hchannel,
    Core.byte_congr hdirection, Core.byte_congr hedge, Core.byte_congr hclass,
    Core.byte_congr huser, Core.word_congr hsource]

/-- A core that takes a point rounds all of these to an integer. -/
theorem nearestInt?_of_encode {scaling : Scaling} {p : Point} {part : Bytes}
    (h : encode scaling p = .ok part) :
    ∀ d ∈ wholes, ∃ n, (p.valueOrZero d).nearestInt? = some n := by
  intro d hd
  obtain ⟨f, hf, rfl⟩ := List.mem_map.1 hd
  obtain ⟨n, hn, -⟩ := read_encode h f hf
  exact ⟨n, hn.1⟩

end ExtendedCore

namespace FormatLayout

variable {l : FormatLayout} {p q : Point} {d : Dimension}

/-- The dimensions of the core that are stored from the nearest integer. -/
def wholes (l : FormatLayout) : List Dimension :=
  if l.extended then ExtendedCore.wholes else LegacyCore.wholes

/-- The core stores a dimension from a double or from the nearest integer. -/
theorem mem_coreDimensions : ∀ l ∈ all, ∀ d ∈ l.coreDimensions, d ∈ l.doubles ∨ d ∈ l.wholes := by
  decide

theorem wholes_subset : ∀ l ∈ all, ∀ d ∈ l.wholes, d ∈ l.dimensions ∧ d ∉ l.doubles := by
  decide

theorem coreDoubles_subset : ∀ l ∈ all, ∀ d ∈ [.x, .y, .z, .scanAngleRank], d ∈ l.dimensions := by
  decide

theorem encode_coreSlot_congr (hl : l ∈ all) (h : l.Agrees p q) (scaling : Scaling) :
    (l.coreSlot scaling).encode p = (l.coreSlot scaling).encode q := by
  have hnumber : ∀ d ∈ [.x, .y, .z, .scanAngleRank], p.number d = q.number d :=
    fun d hd ↦ h.number d (coreDoubles_subset l hl d hd)
  have halike : ∀ d ∈ l.wholes, (p.valueOrZero d).Alike (q.valueOrZero d) := fun d hd ↦
    h.alike d (wholes_subset l hl d hd).1 (wholes_subset l hl d hd).2
  unfold wholes at halike
  unfold coreSlot
  cases hkind : l.extended with
  | false =>
    rw [hkind] at halike
    have hthree : ∀ d ∈ [.x, .y, .z], p.number d = q.number d :=
      fun d hd ↦ hnumber d (List.mem_append_left [_] hd)
    exact LegacyCore.encode_congr hthree halike scaling
  | true =>
    rw [hkind] at halike
    exact ExtendedCore.encode_congr hnumber halike scaling

theorem nearestInt?_of_encode_coreSlot {scaling : Scaling} {part : Bytes}
    (h : (l.coreSlot scaling).encode p = .ok part) :
    ∀ d ∈ l.wholes, ∃ n, (p.valueOrZero d).nearestInt? = some n := by
  unfold coreSlot at h
  unfold wholes
  cases hkind : l.extended with
  | false =>
    rw [hkind] at h
    exact LegacyCore.nearestInt?_of_encode h
  | true =>
    rw [hkind] at h
    exact ExtendedCore.nearestInt?_of_encode h

/-- Behind the core stand the GPS time, stored from a double, and words. -/
theorem optionalSlot_cases {s : Slot} (hs : s ∈ l.optionalSlots) :
    (∃ start, s = .gpsTime start ∧ .gpsTime ∈ l.dimensions) ∨
      ∃ start d, s = .word start d ∧ d ∈ l.dimensions ∧ d ∉ l.doubles := by
  simp only [optionalSlots, List.mem_flatMap, List.mem_append, Option.mem_toList,
    Option.map_eq_some_iff] at hs
  obtain ⟨owner, (⟨start, hstart, rfl⟩ | ⟨start, hstart, rfl⟩) | ⟨start, hstart, rfl⟩, hs⟩ := hs
  · obtain rfl := List.mem_singleton.1 hs
    exact .inl ⟨start, rfl, by simp [dimensions, hstart]⟩
  · simp only [Section.slots, List.mem_cons, List.not_mem_nil, or_false] at hs
    right
    obtain rfl | rfl | rfl := hs <;>
      exact ⟨_, _, rfl, by simp [dimensions, hstart], by cases h : l.extended <;> simp [doubles, h]⟩
  · obtain rfl := List.mem_singleton.1 hs
    right
    exact ⟨_, _, rfl, by simp [dimensions, hstart], by cases h : l.extended <;> simp [doubles, h]⟩

end FormatLayout

/-! ## Extra dimensions -/

namespace ExtraDim

variable {dim : ExtraDim} {s : Scalar} {p q : Point}

theorem encode_scalar (hstorage : dim.storage = .scalar s) (p : Point) :
    dim.encode p = (dim.stored s p).encode s dim.name := by
  simp only [encode, hstorage]

theorem encode_congr (h : p.get? dim.id = q.get? dim.id) : dim.encode p = dim.encode q := by
  simp only [encode, stored, h]

end ExtraDim

/-! ## Layouts -/

theorem Slot.pack_congr {s : Slot} {p q : Point} (h : s.encode p = s.encode q) :
    s.pack p = s.pack q := by
  unfold pack
  rw [h]

theorem Section.pack_congr {s : Section} {p q : Point}
    (h : ∀ slot ∈ s.slots, slot.encode p = slot.encode q) : s.pack p = s.pack q := by
  unfold pack
  rw [Stateful.forM_congr fun slot hslot ↦ Slot.pack_congr (h slot hslot)]

namespace RecordLayout

variable {number : UInt8} {format : FormatLayout} {scaling : Scaling} {dims : List ExtraDim}
  {p q : Point} {buffer : Bytes}

/-- Points that every slot writes alike are written alike, whatever the buffer holds. -/
theorem pack_congr {l : RecordLayout} (h : ∀ s ∈ l.slots, s.encode p = s.encode q) :
    l.pack p = l.pack q := by
  unfold pack
  rw [Stateful.forM_congr fun owner howner ↦ Section.pack_congr fun slot hslot ↦
    h slot (List.mem_flatMap.2 ⟨owner, howner, hslot⟩)]

/-- Points from which a format and the extra dimensions take the same are written alike. -/
theorem pack_congr_ofFormat (hformat : FormatLayout.ofNumber? number = some format)
    (hagrees : format.Agrees p q) (hdims : ∀ dim ∈ dims, dim.encode p = dim.encode q) :
    (ofFormat number scaling dims).pack p = (ofFormat number scaling dims).pack q := by
  refine pack_congr fun s hs ↦ ?_
  rw [slots_ofFormat hformat, List.mem_cons, List.mem_append] at hs
  obtain rfl | hs | hs := hs
  · exact FormatLayout.encode_coreSlot_congr (List.mem_of_getElem? hformat) hagrees scaling
  · obtain ⟨start, rfl, hd⟩ | ⟨start, d, rfl, hd, hwhole⟩ := FormatLayout.optionalSlot_cases hs
    · simp only [Slot.gpsTime, hagrees.number _ hd]
    · simp only [Slot.word, Core.word_congr (hagrees.alike d hd hwhole)]
  · obtain ⟨dim, hdim, rfl⟩ := List.mem_map.1 hs
    exact hdims dim hdim

/-- A record that takes a point rounds every dimension to an integer that the format does not store
from a double. -/
theorem nearestInt?_of_pack (hformat : FormatLayout.ofNumber? number = some format)
    (hroom : (ofFormat number scaling dims).recordLength ≤ buffer.length)
    {configured : Bool} {packed : Bytes}
    (hpack : (ofFormat number scaling dims).pack p buffer = .ok configured packed) :
    ∀ d ∈ format.dimensions, d ∉ format.doubles → ∃ n, (p.valueOrZero d).nearestInt? = some n := by
  intro d hd hwhole
  have hknown := List.mem_of_getElem? hformat
  have hslots := exists_encode_of_pack hroom hpack
  rw [slots_ofFormat hformat] at hslots
  rw [← (FormatLayout.dimensions_perm format hknown).1.mem_iff, List.mem_append] at hd
  rcases hd with hcore | hother
  · obtain ⟨part, hpart⟩ := hslots _ List.mem_cons_self
    have hd := (FormatLayout.mem_coreDimensions format hknown d hcore).resolve_left hwhole
    exact FormatLayout.nearestInt?_of_encode_coreSlot hpart d hd
  · obtain ⟨s, hs, hd⟩ := List.mem_flatMap.1 hother
    obtain ⟨part, hpart⟩ := hslots s (by simp [hs])
    obtain ⟨start, rfl, -⟩ | ⟨start, e, rfl, -⟩ := FormatLayout.optionalSlot_cases hs
    · obtain rfl := List.mem_singleton.1 hd
      exact absurd (by simp [FormatLayout.doubles]) hwhole
    · obtain rfl := List.mem_singleton.1 hd
      obtain ⟨n, hn, -⟩ := map_eq_ok.1 hpart
      exact ⟨n, (Value.natural_eq_ok.1 hn).1⟩

end RecordLayout

end LasFile
