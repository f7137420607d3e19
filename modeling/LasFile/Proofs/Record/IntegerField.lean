import LasFile.Proofs.Byte.Placement
import LasFile.Proofs.Record.Restore

/-!
# Integer fields of the core

A value of the core is checked against the whole byte or word that it is stored in. Several fields
share a byte, though, and each of them keeps its low bits alone: what is read back is the remainder
of the value by the number of values there is room for. A value that fits the byte and not the field
is changed without a failure.
-/

namespace LasFile

open Outcome

/-- An integer field of a core. -/
structure IntegerField where
  dimension : Dimension
  /-- The whole bytes that a value is checked against. -/
  width : Width
  /-- Place of these bytes in a record. -/
  start : Nat
  /-- What the field counts in units of. -/
  unit : Nat
  /-- How many values there is room for. -/
  room : Nat
  deriving DecidableEq, Repr

namespace IntegerField

/-- The number in the field. -/
def read (f : IntegerField) (bs : Bytes) : Nat :=
  Core.numberAt bs f.start f.width.bytes / f.unit % f.room

/-- The number that a point's value is rounded to fits the whole bytes. -/
def Admits (f : IntegerField) (p : Point) (n : Nat) : Prop :=
  (p.valueOrZero f.dimension).nearestInt? = some (n : Int) ∧ n < ByteOrder.capacity f.width.bytes

/-- A number that fits the whole bytes is what its remainder stands for if there is room for it. -/
theorem remainder_eq_iff (f : IntegerField) (hroom : 0 < f.room) {n : Nat}
    (hn : n < ByteOrder.capacity f.width.bytes) :
    some (Value.unsigned (.ofNat (n % f.room))) = some (.unsigned (.ofNat n)) ↔ n < f.room := by
  have hwide : n < UInt64.size := by
    apply Nat.lt_of_lt_of_le hn
    cases f.width <;> decide
  have hremainder : n % f.room < UInt64.size := Nat.lt_of_le_of_lt (Nat.mod_le _ _) hwide
  simp only [Option.some.injEq, Value.unsigned.injEq]
  constructor
  · intro h
    have hnumber := congrArg UInt64.toNat h
    rw [UInt64.toNat_ofNat_of_lt' hremainder, UInt64.toNat_ofNat_of_lt' hwide] at hnumber
    rw [← hnumber]
    exact Nat.mod_lt n hroom
  · intro h
    rw [Nat.mod_eq_of_lt h]

end IntegerField

/-! ## Cores -/

namespace Core

/-- A number among other parts of a core. -/
theorem numberAt_flatten {blocks : List Bytes} {part : Bytes} (hpart : blocks.flatten = part)
    {i : Nat} {w : Width} {n : Nat} (hblock : blocks[i]? = some (Value.unsignedBytes w n))
    (hn : n < ByteOrder.capacity w.bytes) {start : Nat}
    (hstart : (blocks.take i).flatten.length = start) : numberAt part start w.bytes = n := by
  subst hpart
  have hslice := Bytes.slice_flatten_take hblock
  rw [hstart, Value.length_unsignedBytes] at hslice
  rw [numberAt, hslice, Value.unsignedBytes, ByteOrder.toNat_bytes, Nat.mod_eq_of_lt hn]

theorem raises_coordinate (p : Point) (d : Dimension) (t : Transform) :
    Raises (coordinate p d t) Value.IsRefusal :=
  Value.raises_isRefusal (Value.raises_whole _ _ _)

theorem raises_byte (p : Point) (d : Dimension) : Raises (byte p d) Value.IsRefusal :=
  Value.raises_isRefusal (Value.raises_natural _ _ _)

theorem raises_word (p : Point) (d : Dimension) : Raises (word p d) Value.IsRefusal :=
  Value.raises_isRefusal (Value.raises_natural _ _ _)

end Core

namespace LegacyCore

/-- The integer fields of the shorter core. -/
def integerFields : List IntegerField :=
  [⟨.intensity, .two, 12, 1, 65536⟩, ⟨.returnNumber, .one, 14, 1, 8⟩,
    ⟨.numberOfReturns, .one, 14, 8, 8⟩, ⟨.scanDirectionFlag, .one, 14, 64, 2⟩,
    ⟨.edgeOfFlightLine, .one, 14, 128, 2⟩, ⟨.classification, .one, 15, 1, 32⟩,
    ⟨.classFlags, .one, 15, 32, 8⟩, ⟨.userData, .one, 17, 1, 256⟩,
    ⟨.pointSourceId, .two, 18, 1, 65536⟩]

/-- Every integer field is read from its place. -/
theorem mem_decode (scaling : Scaling) {bs : Bytes} (hlength : bs.length = size) :
    ∀ f ∈ integerFields,
      (f.dimension, Value.unsigned (.ofNat (f.read bs))) ∈ decode scaling bs := by
  have hlength : bs.length = 20 := hlength
  have hintensity : Core.numberAt bs 12 2 < 65536 := Core.numberAt_lt bs (by omega)
  have hflags : Core.numberAt bs 14 1 < 256 := Core.numberAt_lt bs (by omega)
  have hclasses : Core.numberAt bs 15 1 < 256 := Core.numberAt_lt bs (by omega)
  have huser : Core.numberAt bs 17 1 < 256 := Core.numberAt_lt bs (by omega)
  have hsource : Core.numberAt bs 18 2 < 65536 := Core.numberAt_lt bs (by omega)
  have hedge : Core.numberAt bs 14 1 / 128 % 2 = Core.numberAt bs 14 1 / 128 := by omega
  have hclassFlags : Core.numberAt bs 15 1 / 32 % 8 = Core.numberAt bs 15 1 / 32 := by omega
  simp [integerFields, IntegerField.read, Width.bytes, decode, Core.decodeCommon, Core.natural,
    Nat.mod_eq_of_lt hintensity, Nat.mod_eq_of_lt huser, Nat.mod_eq_of_lt hsource, hedge,
    hclassFlags]

/-- A core that takes a point holds the low bits of every integer field. -/
theorem read_encode {scaling : Scaling} {p : Point} {part : Bytes}
    (h : encode scaling p = .ok part) :
    ∀ f ∈ integerFields, ∃ n, f.Admits p n ∧ f.read part = n % f.room := by
  simp only [encode, bind_eq_ok, pure_eq_ok] at h
  obtain ⟨x, -, y, -, z, -, intensity, hintensity, first, hfirst, second, hsecond, direction,
    hdirection, edge, hedge, class_, hclass, flags, hflags, angle, -, user, huser, source, hsource,
    hpart⟩ := h
  obtain ⟨hintensity, hintensityWord⟩ := Value.natural_eq_ok.1 hintensity
  obtain ⟨huser, huserByte⟩ := Value.natural_eq_ok.1 huser
  obtain ⟨hsource, hsourceWord⟩ := Value.natural_eq_ok.1 hsource
  rw [Core.byte, Value.natural_eq_ok] at hfirst hsecond hdirection hedge hclass hflags
  have hbyte : ByteOrder.capacity Width.one.bytes = 256 := ByteOrder.capacity_width .one
  have hpart : [Value.signedBytes .four x, Value.signedBytes .four y, Value.signedBytes .four z,
      Value.unsignedBytes .two intensity, Value.unsignedBytes .one (first % 8 + 8 * (second % 8) +
        64 * (direction % 2) + 128 * (edge % 2)),
      Value.unsignedBytes .one (class_ % 32 + 32 * (flags % 8)), Value.signedBytes .one angle,
      Value.unsignedBytes .one user, Value.unsignedBytes .two source].flatten = part := by
    simp [← hpart]
  have hintensityAt : Core.numberAt part 12 Width.two.bytes = intensity :=
    Core.numberAt_flatten hpart (i := 3) rfl hintensityWord (by simp [Width.bytes])
  have hreturnsAt : Core.numberAt part 14 Width.one.bytes = first % 8 + 8 * (second % 8) +
      64 * (direction % 2) + 128 * (edge % 2) :=
    Core.numberAt_flatten hpart (i := 4) rfl (by omega) (by simp [Width.bytes])
  have hclassAt : Core.numberAt part 15 Width.one.bytes = class_ % 32 + 32 * (flags % 8) :=
    Core.numberAt_flatten hpart (i := 5) rfl (by omega) (by simp [Width.bytes])
  have huserAt : Core.numberAt part 17 Width.one.bytes = user :=
    Core.numberAt_flatten hpart (i := 7) rfl huserByte (by simp [Width.bytes])
  have hsourceAt : Core.numberAt part 18 Width.two.bytes = source :=
    Core.numberAt_flatten hpart (i := 8) rfl hsourceWord (by simp [Width.bytes])
  simp only [integerFields, List.forall_mem_cons, IntegerField.Admits, IntegerField.read,
    hintensityAt, hreturnsAt, hclassAt, huserAt, hsourceAt]
  refine ⟨⟨intensity, ⟨hintensity, hintensityWord⟩, by omega⟩, ⟨first, hfirst, by omega⟩,
    ⟨second, hsecond, by omega⟩, ⟨direction, hdirection, by omega⟩, ⟨edge, hedge, by omega⟩,
    ⟨class_, hclass, by omega⟩, ⟨flags, hflags, by omega⟩, ⟨user, ⟨huser, huserByte⟩, by omega⟩,
    ⟨source, ⟨hsource, hsourceWord⟩, by omega⟩, by simp⟩

theorem raises_encode (scaling : Scaling) (p : Point) :
    Raises (encode scaling p) Value.IsRefusal := by
  unfold encode
  iterate 3 refine (Core.raises_coordinate _ _ _).bind fun _ ↦ ?_
  refine (Core.raises_word _ _).bind fun _ ↦ ?_
  iterate 6 refine (Core.raises_byte _ _).bind fun _ ↦ ?_
  refine (Value.raises_isRefusal (Value.raises_whole _ _ _)).bind fun _ ↦ ?_
  refine (Core.raises_byte _ _).bind fun _ ↦ ?_
  refine (Core.raises_word _ _).bind fun _ ↦ ?_
  exact raises_ok _

end LegacyCore

namespace ExtendedCore

/-- The integer fields of the longer core. -/
def integerFields : List IntegerField :=
  [⟨.intensity, .two, 12, 1, 65536⟩, ⟨.returnNumber, .one, 14, 1, 16⟩,
    ⟨.numberOfReturns, .one, 14, 16, 16⟩, ⟨.classFlags, .one, 15, 1, 16⟩,
    ⟨.scanChannel, .one, 15, 16, 4⟩, ⟨.scanDirectionFlag, .one, 15, 64, 2⟩,
    ⟨.edgeOfFlightLine, .one, 15, 128, 2⟩, ⟨.classification, .one, 16, 1, 256⟩,
    ⟨.userData, .one, 17, 1, 256⟩, ⟨.pointSourceId, .two, 20, 1, 65536⟩]

/-- Every integer field is read from its place. -/
theorem mem_decode (scaling : Scaling) {bs : Bytes} (hlength : bs.length = size) :
    ∀ f ∈ integerFields,
      (f.dimension, Value.unsigned (.ofNat (f.read bs))) ∈ decode scaling bs := by
  have hlength : bs.length = 22 := hlength
  have hintensity : Core.numberAt bs 12 2 < 65536 := Core.numberAt_lt bs (by omega)
  have hreturns : Core.numberAt bs 14 1 < 256 := Core.numberAt_lt bs (by omega)
  have hflags : Core.numberAt bs 15 1 < 256 := Core.numberAt_lt bs (by omega)
  have hclass : Core.numberAt bs 16 1 < 256 := Core.numberAt_lt bs (by omega)
  have huser : Core.numberAt bs 17 1 < 256 := Core.numberAt_lt bs (by omega)
  have hsource : Core.numberAt bs 20 2 < 65536 := Core.numberAt_lt bs (by omega)
  have hedge : Core.numberAt bs 15 1 / 128 % 2 = Core.numberAt bs 15 1 / 128 := by omega
  have hnumber : Core.numberAt bs 14 1 / 16 % 16 = Core.numberAt bs 14 1 / 16 := by omega
  simp [integerFields, IntegerField.read, Width.bytes, decode, Core.decodeCommon, Core.natural,
    Nat.mod_eq_of_lt hintensity, Nat.mod_eq_of_lt hclass, Nat.mod_eq_of_lt huser,
    Nat.mod_eq_of_lt hsource, hedge, hnumber]

/-- A core that takes a point holds the low bits of every integer field. -/
theorem read_encode {scaling : Scaling} {p : Point} {part : Bytes}
    (h : encode scaling p = .ok part) :
    ∀ f ∈ integerFields, ∃ n, f.Admits p n ∧ f.read part = n % f.room := by
  simp only [encode, bind_eq_ok, pure_eq_ok] at h
  obtain ⟨x, -, y, -, z, -, intensity, hintensity, first, hfirst, second, hsecond, flags, hflags,
    channel, hchannel, direction, hdirection, edge, hedge, class_, hclass, user, huser, angle, -,
    source, hsource, hpart⟩ := h
  obtain ⟨hintensity, hintensityWord⟩ := Value.natural_eq_ok.1 hintensity
  obtain ⟨hclass, hclassByte⟩ := Value.natural_eq_ok.1 hclass
  obtain ⟨huser, huserByte⟩ := Value.natural_eq_ok.1 huser
  obtain ⟨hsource, hsourceWord⟩ := Value.natural_eq_ok.1 hsource
  rw [Core.byte, Value.natural_eq_ok] at hfirst hsecond hflags hchannel hdirection hedge
  have hbyte : ByteOrder.capacity Width.one.bytes = 256 := ByteOrder.capacity_width .one
  have hpart : [Value.signedBytes .four x, Value.signedBytes .four y, Value.signedBytes .four z,
      Value.unsignedBytes .two intensity,
      Value.unsignedBytes .one (first % 16 + 16 * (second % 16)),
      Value.unsignedBytes .one (flags % 16 + 16 * (channel % 4) + 64 * (direction % 2) +
        128 * (edge % 2)), Value.unsignedBytes .one class_, Value.unsignedBytes .one user,
      Value.signedBytes .two angle, Value.unsignedBytes .two source].flatten = part := by
    simp [← hpart]
  have hintensityAt : Core.numberAt part 12 Width.two.bytes = intensity :=
    Core.numberAt_flatten hpart (i := 3) rfl hintensityWord (by simp [Width.bytes])
  have hreturnsAt : Core.numberAt part 14 Width.one.bytes = first % 16 + 16 * (second % 16) :=
    Core.numberAt_flatten hpart (i := 4) rfl (by omega) (by simp [Width.bytes])
  have hflagsAt : Core.numberAt part 15 Width.one.bytes = flags % 16 + 16 * (channel % 4) +
      64 * (direction % 2) + 128 * (edge % 2) :=
    Core.numberAt_flatten hpart (i := 5) rfl (by omega) (by simp [Width.bytes])
  have hclassAt : Core.numberAt part 16 Width.one.bytes = class_ :=
    Core.numberAt_flatten hpart (i := 6) rfl hclassByte (by simp [Width.bytes])
  have huserAt : Core.numberAt part 17 Width.one.bytes = user :=
    Core.numberAt_flatten hpart (i := 7) rfl huserByte (by simp [Width.bytes])
  have hsourceAt : Core.numberAt part 20 Width.two.bytes = source :=
    Core.numberAt_flatten hpart (i := 9) rfl hsourceWord (by simp [Width.bytes])
  simp only [integerFields, List.forall_mem_cons, IntegerField.Admits, IntegerField.read,
    hintensityAt, hreturnsAt, hflagsAt, hclassAt, huserAt, hsourceAt]
  exact ⟨⟨intensity, ⟨hintensity, hintensityWord⟩, by omega⟩, ⟨first, hfirst, by omega⟩,
    ⟨second, hsecond, by omega⟩, ⟨flags, hflags, by omega⟩, ⟨channel, hchannel, by omega⟩,
    ⟨direction, hdirection, by omega⟩, ⟨edge, hedge, by omega⟩,
    ⟨class_, ⟨hclass, hclassByte⟩, by omega⟩, ⟨user, ⟨huser, huserByte⟩, by omega⟩,
    ⟨source, ⟨hsource, hsourceWord⟩, by omega⟩, by simp⟩

theorem raises_encode (scaling : Scaling) (p : Point) :
    Raises (encode scaling p) Value.IsRefusal := by
  unfold encode
  iterate 3 refine (Core.raises_coordinate _ _ _).bind fun _ ↦ ?_
  refine (Core.raises_word _ _).bind fun _ ↦ ?_
  iterate 8 refine (Core.raises_byte _ _).bind fun _ ↦ ?_
  refine (Value.raises_isRefusal (Value.raises_whole _ _ _)).bind fun _ ↦ ?_
  refine (Core.raises_word _ _).bind fun _ ↦ ?_
  exact raises_ok _

end ExtendedCore

namespace FormatLayout

variable (l : FormatLayout)

/-- The integer fields of a format's core. -/
def integerFields : List IntegerField :=
  if l.extended then ExtendedCore.integerFields else LegacyCore.integerFields

theorem mem_decode_coreSlot (scaling : Scaling) {bs : Bytes} (hlength : bs.length = l.coreSize) :
    ∀ f ∈ l.integerFields,
      (f.dimension, Value.unsigned (.ofNat (f.read bs))) ∈ (l.coreSlot scaling).decode bs := by
  unfold coreSize at hlength
  unfold integerFields coreSlot
  cases hkind : l.extended with
  | false =>
    rw [hkind] at hlength
    exact LegacyCore.mem_decode scaling (by simpa using hlength)
  | true =>
    rw [hkind] at hlength
    exact ExtendedCore.mem_decode scaling (by simpa using hlength)

theorem read_encode_coreSlot {scaling : Scaling} {p : Point} {part : Bytes}
    (h : (l.coreSlot scaling).encode p = .ok part) :
    ∀ f ∈ l.integerFields, ∃ n, f.Admits p n ∧ f.read part = n % f.room := by
  unfold coreSlot at h
  unfold integerFields
  cases hkind : l.extended with
  | false =>
    rw [hkind] at h
    exact LegacyCore.read_encode h
  | true =>
    rw [hkind] at h
    exact ExtendedCore.read_encode h

end FormatLayout

/-! ## Layouts -/

/-- Nothing but a range check stops a slot. -/
theorem Section.raises_encode {s : Section} {slot : Slot} (h : slot ∈ s.slots) (p : Point) :
    Raises (slot.encode p) Value.IsRefusal := by
  cases s <;> simp only [slots, List.mem_cons, List.not_mem_nil, or_false, List.mem_map] at h
  case legacyCore scaling =>
    subst h
    exact LegacyCore.raises_encode scaling p
  case extendedCore scaling =>
    subst h
    exact ExtendedCore.raises_encode scaling p
  case gpsTime start =>
    subst h
    exact raises_ok _
  case color start =>
    obtain rfl | rfl | rfl := h <;> exact (Core.raises_word _ _).map _
  case nearInfrared start =>
    subst h
    exact (Core.raises_word _ _).map _
  case extraDims dims =>
    obtain ⟨dim, -, rfl⟩ := h
    show Raises (dim.encode p) _
    unfold ExtraDim.encode
    split
    · split <;> exact raises_ok _
    · exact Value.raises_isRefusal (Value.raises_encode _ _ _)

namespace RecordLayout

variable {number : UInt8} {format : FormatLayout} {scaling : Scaling} {dims : List ExtraDim}
  {p : Point} {buffer packed : Bytes}

/-- A layout with room refuses a point by a range check alone. -/
theorem refusal_of_pack {l : RecordLayout} (hroom : l.recordLength ≤ buffer.length)
    (h : ∀ configured packed, l.pack p buffer ≠ .ok configured packed) :
    ∃ dimension value rest, l.pack p buffer = .error (.outOfRange dimension value) rest := by
  cases hparts : l.parts p with
  | ok parts => exact absurd (pack_of_parts hroom hparts) (h _ _)
  | error e =>
    obtain ⟨rest, hrest⟩ := pack_of_parts_error hroom hparts
    obtain ⟨slot, hslot, herror⟩ := exists_mem_of_mapM_eq_error hparts
    obtain ⟨s, -, hmem⟩ := List.mem_flatMap.1 hslot
    obtain ⟨dimension, value, rfl⟩ := (Section.raises_encode hmem p).map _ e herror
    exact ⟨dimension, value, rest, hrest⟩

/-- The slots behind the core begin behind it. -/
theorem coreSize_le_start :
    ∀ l ∈ FormatLayout.all, ∀ s ∈ l.optionalSlots, l.coreSize ≤ s.start := by
  decide

theorem coreSlot_mem_slots (hformat : FormatLayout.ofNumber? number = some format)
    (scaling : Scaling) (dims : List ExtraDim) :
    format.coreSlot scaling ∈ (ofFormat number scaling dims).slots := by
  rw [slots_ofFormat hformat]
  exact List.mem_cons_self

/-- The core of a packed record is that of the point if no extra dimension is placed over it. -/
theorem slice_core_of_pack (hformat : FormatLayout.ofNumber? number = some format)
    (hbehind : ∀ dim ∈ dims, format.coreSize ≤ dim.start)
    (hroom : (ofFormat number scaling dims).recordLength ≤ buffer.length) {configured : Bool}
    (hpack : (ofFormat number scaling dims).pack p buffer = .ok configured packed) :
    (format.coreSlot scaling).encode p = .ok (packed.slice 0 format.coreSize) := by
  obtain ⟨hstart, hwidth⟩ := format.coreSlot_range scaling
  have hapart : ∀ later ∈ format.optionalSlots ++ dims.map ExtraDim.slot,
      (format.coreSlot scaling).range.Apart later.range := by
    intro later hlater
    have hlate : format.coreSize ≤ later.start := by
      rcases List.mem_append.1 hlater with hlater | hlater
      · exact coreSize_le_start format (List.mem_of_getElem? hformat) later hlater
      · obtain ⟨dim, hdim, rfl⟩ := List.mem_map.1 hlater
        exact hbehind dim hdim
    apply ByteRange.apart_of_le
    show (format.coreSlot scaling).start + (format.coreSlot scaling).width ≤ later.start
    omega
  have hslots : (ofFormat number scaling dims).slots =
      [] ++ format.coreSlot scaling :: (format.optionalSlots ++ dims.map ExtraDim.slot) :=
    slots_ofFormat hformat scaling dims
  have hslice := slice_of_pack hslots hapart hroom hpack
  rwa [hstart, hwidth] at hslice

/-- A record with room for a layout has room for the core. -/
theorem coreSize_le_of_room (hformat : FormatLayout.ofNumber? number = some format) {n : Nat}
    (hroom : (ofFormat number scaling dims).recordLength ≤ n) : format.coreSize ≤ n := by
  have hend := end_le_of_mem_slots (coreSlot_mem_slots hformat scaling dims) hroom
  rwa [(format.coreSlot_range scaling).1, (format.coreSlot_range scaling).2, Nat.zero_add] at hend

/-- The bytes behind the core carry none of its dimensions, unless an extra dimension does. -/
theorem get?_setAll_fields (hformat : FormatLayout.ofNumber? number = some format)
    {record : Bytes} {d : Dimension} {v : Value}
    (hmem : (d, v) ∈ (format.coreSlot scaling).decode (record.slice 0 format.coreSize))
    (hother : ∀ dim ∈ dims, dim.id ≠ d) (q : Point) :
    (q.setAll ((ofFormat number scaling dims).fields record)).get? d = some v := by
  obtain ⟨hperm, hnodup⟩ := FormatLayout.dimensions_perm format (List.mem_of_getElem? hformat)
  obtain ⟨hcoreNodup, -, hdisjoint⟩ := List.nodup_append.1 (hperm.nodup_iff.2 hnodup)
  have hcore := format.map_fst_coreSlot scaling (record.slice 0 format.coreSize)
  have hd : d ∈ format.coreDimensions := hcore ▸ List.mem_map_of_mem hmem
  obtain ⟨hstart, hwidth⟩ := format.coreSlot_range scaling
  rw [fields, slots_ofFormat hformat, List.flatMap_cons, Point.setAll_append, hstart, hwidth,
    Point.get?_setAll_of_notMem]
  · exact Point.get?_setAll_of_mem (hcore ▸ hcoreNodup) hmem
  · rw [List.map_flatMap, List.mem_flatMap]
    rintro ⟨s, hs, hcarried⟩
    rcases List.mem_append.1 hs with hs | hs
    · obtain ⟨owner, -, hslot⟩ := List.mem_flatMap.1 hs
      rw [Section.map_fst_decode hslot] at hcarried
      exact hdisjoint d hd d (List.mem_flatMap.2 ⟨s, hs, hcarried⟩) rfl
    · obtain ⟨dim, hdim, rfl⟩ := List.mem_map.1 hs
      exact hother dim hdim (List.mem_singleton.1 hcarried).symm

/-- Every field has room for zero. -/
theorem room_pos : ∀ l ∈ FormatLayout.all, ∀ f ∈ l.integerFields, 0 < f.room := by
  decide

/-- A packed record gives an integer field the low bits of the number that was put in. -/
theorem integerField_of_pack (hformat : FormatLayout.ofNumber? number = some format)
    (hbehind : ∀ dim ∈ dims, format.coreSize ≤ dim.start)
    (hroom : (ofFormat number scaling dims).recordLength ≤ buffer.length) {configured : Bool}
    (hpack : (ofFormat number scaling dims).pack p buffer = .ok configured packed) :
    ∀ f ∈ format.integerFields, ∃ n, f.Admits p n ∧ ((∀ dim ∈ dims, dim.id ≠ f.dimension) →
      ∀ q : Point, (q.setAll ((ofFormat number scaling dims).fields packed)).get? f.dimension =
        some (.unsigned (.ofNat (n % f.room)))) := by
  intro f hf
  have hconfigured : configured = true := by
    obtain ⟨-, -, rfl, -⟩ := (pack_eq_ok hroom).1 hpack
    exact isConfigured_ofFormat hformat scaling dims
  subst hconfigured
  obtain ⟨n, hn, hread⟩ :=
    format.read_encode_coreSlot (slice_core_of_pack hformat hbehind hroom hpack) f hf
  refine ⟨n, hn, fun hother q ↦ ?_⟩
  have hcore : (packed.slice 0 format.coreSize).length = format.coreSize := by
    apply Bytes.length_slice
    rw [Nat.zero_add, (ofFormat number scaling dims).keepsLength_pack p _ _ _ (Nat.zero_le _) hpack]
    exact coreSize_le_of_room hformat hroom
  have hmem := format.mem_decode_coreSlot scaling hcore f hf
  rw [hread] at hmem
  exact get?_setAll_fields hformat hmem hother q

/-- The integer fields of a format are dimensions of it. -/
theorem dimension_mem_dimensions :
    ∀ l ∈ FormatLayout.all, ∀ f ∈ l.integerFields, f.dimension ∈ l.dimensions := by
  decide

/-- What becomes of the integer fields of a point. A value that does not fit the byte or the word
that it is stored in is refused. Otherwise the remainder by the room of its field is read back,
which is the value itself exactly if there is room for it. -/
theorem load_of_pack (hformat : FormatLayout.ofNumber? number = some format)
    (hbehind : ∀ dim ∈ dims, format.coreSize ≤ dim.start)
    (hother : ∀ dim ∈ dims, dim.id ∉ format.dimensions)
    (hroom : (ofFormat number scaling dims).recordLength ≤ buffer.length) (p : Point) :
    (∀ packed, (ofFormat number scaling dims).pack p buffer = .ok true packed →
      ∀ q, ∃ loaded, (ofFormat number scaling dims).load packed q = .ok true loaded ∧
        ∀ f ∈ format.integerFields, ∃ n, f.Admits p n ∧
          loaded.get? f.dimension = some (.unsigned (.ofNat (n % f.room))) ∧
          (loaded.get? f.dimension = some (.unsigned (.ofNat n)) ↔ n < f.room)) ∧
    ∀ f ∈ format.integerFields, (∀ n, ¬f.Admits p n) → ∃ dimension value rest,
      (ofFormat number scaling dims).pack p buffer = .error (.outOfRange dimension value) rest := by
  have hknown := List.mem_of_getElem? hformat
  constructor
  · intro packed hpack q
    have hlength := (ofFormat number scaling dims).keepsLength_pack p _ _ _ (Nat.zero_le _) hpack
    refine ⟨q.setAll ((ofFormat number scaling dims).fields packed), ?_, fun f hf ↦ ?_⟩
    · rw [load_of_room (by rwa [hlength]), isConfigured_ofFormat hformat]
    · obtain ⟨n, hn, hfield⟩ := integerField_of_pack hformat hbehind hroom hpack f hf
      have hstandard := dimension_mem_dimensions format hknown f hf
      have hvalue := hfield (fun dim hdim hid ↦ hother dim hdim (hid ▸ hstandard)) q
      refine ⟨n, hn, hvalue, ?_⟩
      rw [hvalue]
      exact f.remainder_eq_iff (room_pos format hknown f hf) hn.2
  · intro f hf hnone
    refine refusal_of_pack hroom fun configured packed hpack ↦ ?_
    obtain ⟨n, hn, -⟩ := integerField_of_pack hformat hbehind hroom hpack f hf
    exact hnone n hn

/-- An eighth return is accepted by format 0 and read back as return zero, while a value past the
byte is refused. -/
theorem load_of_pack_eighthReturn :
    let layout := ofFormat 0 .identity []
    let eighth : Point := .set .empty .returnNumber (.unsigned 8)
    (∃ packed loaded, layout.pack eighth (List.replicate 20 0) = .ok true packed ∧
      layout.load packed .empty = .ok true loaded ∧
      loaded.get? .returnNumber = some (.unsigned 0)) ∧
    ∃ dimension value rest, layout.pack (eighth.set .userData (.unsigned 256))
      (List.replicate 20 0) = .error (.outOfRange dimension value) rest := by
  intro layout eighth
  have hformat : FormatLayout.ofNumber? 0 = some (.legacy 20 none none none) := rfl
  have hroom : layout.recordLength ≤ (List.replicate 20 0 : Bytes).length := by decide
  have hreturn : ⟨.returnNumber, .one, 14, 1, 8⟩ ∈
      (FormatLayout.legacy 20 none none none).integerFields := by decide
  have huser : ⟨.userData, .one, 17, 1, 256⟩ ∈
      (FormatLayout.legacy 20 none none none).integerFields := by decide
  have hparts : layout.parts eighth = .ok [(0, List.replicate 20 0)] :=
    eq_ok_of_toOption (by decide +kernel)
  have hpack : layout.pack eighth (List.replicate 20 0) = .ok true _ := pack_of_parts hroom hparts
  have hnearest : (eighth.valueOrZero .returnNumber).nearestInt? = some 8 := by decide +kernel
  have hlarge : ((eighth.set .userData (.unsigned 256)).valueOrZero .userData).nearestInt? =
      some 256 := by decide +kernel
  constructor
  · obtain ⟨loaded, hload, hfields⟩ :=
      (load_of_pack hformat (by simp) (by simp) hroom eighth).1 _ hpack .empty
    obtain ⟨n, ⟨hn, -⟩, hvalue, -⟩ := hfields _ hreturn
    obtain rfl : n = 8 := by
      rw [hnearest, Option.some.injEq] at hn
      omega
    exact ⟨_, loaded, hpack, hload, hvalue⟩
  · refine (load_of_pack hformat (by simp) (by simp) hroom _).2 _ huser fun n ⟨hn, hlt⟩ ↦ ?_
    rw [hlarge, Option.some.injEq] at hn
    have hbyte : n < 256 := hlt
    omega

end RecordLayout

end LasFile
