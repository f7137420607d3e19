import LasFile.Proofs.Record.Fields
import LasFile.Proofs.Record.Value

/-!
# Records that are read and written again

A slot restores some bytes if every point that carries the fields read from them is written into the
same bytes. All slots do, as long as the grids give back the stored numbers and no NaN passes
through single precision. A point that was read from a record therefore restores every run of the
format and of the extra dimensions in any other record, and leaves the bytes between them alone.
-/

namespace LasFile

open Outcome

/-! ## What the grids have to give back -/

/-- A stored number that comes back from its real value. -/
def Transform.Restores (t : Transform) (n : Int) : Prop :=
  (t.toStored (t.fromStored (.ofInt n))).ieeeEq (.ofInt n) = true

instance (t : Transform) (n : Int) : Decidable (t.Restores n) :=
  inferInstanceAs (Decidable (_ = true))

/-- The grids give back the three coordinates of a record. -/
structure Scaling.Restores (scaling : Scaling) (record : Bytes) : Prop where
  x : scaling.x.Restores (Core.integerAt record 0 4)
  y : scaling.y.Restores (Core.integerAt record 4 4)
  z : scaling.z.Restores (Core.integerAt record 8 4)

/-- A scan angle in stored units that comes back from its degrees. -/
def ScanAngleRestores (n : Int) : Prop :=
  (Double.ofInt n * scanAngleUnit / scanAngleUnit).nearestInt? = some n

instance (n : Int) : Decidable (ScanAngleRestores n) := inferInstanceAs (Decidable (_ = _))

/-! ## Numbers of the core -/

namespace Core

variable {bs : Bytes} {start : Nat} {p : Point} {d : Dimension} {n : Nat} {w : Width}

theorem numberAt_lt (bs : Bytes) {start width : Nat} (h : start + width ≤ bs.length) :
    numberAt bs start width < ByteOrder.capacity width := by
  have hlt := ByteOrder.toNat_lt .little (bs.slice start width)
  rwa [Bytes.length_slice h] at hlt

theorem numberAt_slice {length inner width : Nat} (h : inner + width ≤ length) :
    numberAt (bs.slice start length) inner width = numberAt bs (start + inner) width := by
  rw [numberAt, numberAt, Bytes.slice_slice h]

theorem integerAt_slice {length inner width : Nat} (h : inner + width ≤ length) :
    integerAt (bs.slice start length) inner width = integerAt bs (start + inner) width := by
  rw [integerAt, integerAt, numberAt_slice h]

/-- A number of four bytes at most is the nearest integer to itself. -/
theorem nearestInt?_integerAt (bs : Bytes) (start : Nat) (hw : w ≠ .eight) :
    (Double.ofInt (integerAt bs start w.bytes)).nearestInt? =
      some (integerAt bs start w.bytes) := by
  obtain ⟨hlow, hhigh⟩ := ByteOrder.ofComplement_bounds w (numberAt bs start w.bytes)
  have hhalf : (ByteOrder.capacity w.bytes / 2 : Int) ≤ 2147483648 := by
    cases w <;> first | decide | exact absurd rfl hw
  have hbits : Precision.binary64.hiddenBit = 4503599627370496 := by decide
  apply Double.nearestInt?_ofInt
  rw [integerAt, hbits]
  omega

theorem number_eq {x : Double} (h : p.get? d = some (.float x)) : p.number d = x := by
  rw [Point.number, h]
  rfl

theorem valueOrZero_eq {v : Value} (h : p.get? d = some v) : p.valueOrZero d = v := by
  rw [Point.valueOrZero, h]
  rfl

/-- A coordinate that the grid gives back. -/
theorem coordinate_eq {t : Transform}
    (hvalue : p.get? d = some (.float (t.fromStored (.ofInt (integerAt bs start 4)))))
    (hgrid : t.Restores (integerAt bs start 4)) :
    coordinate p d t = .ok (integerAt bs start 4) := by
  have hnumber : p.number d = t.fromStored (.ofInt (integerAt bs start 4)) :=
    number_eq hvalue
  have hself : (Double.ofInt (integerAt bs start 4)).nearestInt? = some (integerAt bs start 4) :=
    nearestInt?_integerAt (w := .four) bs start (by decide)
  have hnearest : (t.toStored (t.fromStored (.ofInt (integerAt bs start 4)))).nearestInt? =
      some (integerAt bs start 4) := (Double.nearestInt?_eq_of_ieeeEq hgrid).trans hself
  rw [coordinate, hnumber, Value.whole_eq_ok]
  exact ⟨hnearest, ByteOrder.ofComplement_bounds .four (numberAt bs start 4)⟩

theorem byte_eq (h : p.get? d = some (.unsigned (.ofNat n))) (hn : n < 256) :
    byte p d = .ok n := by
  rw [byte, valueOrZero_eq h]
  exact Value.natural_unsigned d.name .one hn

theorem word_eq (h : p.get? d = some (.unsigned (.ofNat n))) (hn : n < 65536) :
    word p d = .ok n := by
  rw [word, valueOrZero_eq h]
  exact Value.natural_unsigned d.name .two hn

theorem unsignedBytes_numberAt (w : Width) (bs : Bytes) (start width : Nat) (hw : w.bytes = width)
    (h : start + width ≤ bs.length) :
    Value.unsignedBytes w (numberAt bs start width) = bs.slice start width :=
  Value.unsignedBytes_toNat ((Bytes.length_slice h).trans hw.symm)

theorem signedBytes_integerAt (w : Width) (bs : Bytes) (start width : Nat) (hw : w.bytes = width)
    (h : start + width ≤ bs.length) :
    Value.signedBytes w (integerAt bs start width) = bs.slice start width := by
  subst hw
  exact Value.signedBytes_ofComplement (Bytes.length_slice h)

/-- What both cores begin with comes back. -/
theorem commonBytes_eq (h : 14 ≤ bs.length) :
    Value.signedBytes .four (integerAt bs 0 4) ++ Value.signedBytes .four (integerAt bs 4 4) ++
        Value.signedBytes .four (integerAt bs 8 4) ++ Value.unsignedBytes .two (numberAt bs 12 2) =
      bs.slice 0 14 := by
  rw [signedBytes_integerAt .four bs 0 4 rfl (by omega),
    signedBytes_integerAt .four bs 4 4 rfl (by omega),
    signedBytes_integerAt .four bs 8 4 rfl (by omega),
    unsignedBytes_numberAt .two bs 12 2 rfl (by omega), Bytes.slice_append_slice bs 0 4 4,
    Bytes.slice_append_slice bs 0 8 4, Bytes.slice_append_slice bs 0 12 2]

theorem slice_length {n : Nat} (h : bs.length = n) : bs.slice 0 n = bs := by
  rw [Bytes.slice, List.drop_zero, ← h, List.take_length]

end Core

/-! ## Slots -/

/-- Bytes that every point is written into that carries the fields read from them. -/
def Slot.Restores (s : Slot) (bs : Bytes) : Prop :=
  ∀ p : Point, (∀ f ∈ s.decode bs, p.get? f.1 = some f.2) → s.encode p = .ok bs

namespace LegacyCore

/-- The numbers of a core in their bytes again. -/
theorem bytes_eq {bs : Bytes} (hlength : bs.length = 20) :
    Value.signedBytes .four (Core.integerAt bs 0 4) ++
        Value.signedBytes .four (Core.integerAt bs 4 4) ++
        Value.signedBytes .four (Core.integerAt bs 8 4) ++
        Value.unsignedBytes .two (Core.numberAt bs 12 2) ++
        Value.unsignedBytes .one (Core.numberAt bs 14 1) ++
        Value.unsignedBytes .one (Core.numberAt bs 15 1) ++
        Value.signedBytes .one (Core.integerAt bs 16 1) ++
        Value.unsignedBytes .one (Core.numberAt bs 17 1) ++
        Value.unsignedBytes .two (Core.numberAt bs 18 2) = bs := by
  rw [Core.commonBytes_eq (by omega), Core.unsignedBytes_numberAt .one bs 14 1 rfl (by omega),
    Core.unsignedBytes_numberAt .one bs 15 1 rfl (by omega),
    Core.signedBytes_integerAt .one bs 16 1 rfl (by omega),
    Core.unsignedBytes_numberAt .one bs 17 1 rfl (by omega),
    Core.unsignedBytes_numberAt .two bs 18 2 rfl (by omega), Bytes.slice_append_slice bs 0 14 1,
    Bytes.slice_append_slice bs 0 15 1, Bytes.slice_append_slice bs 0 16 1,
    Bytes.slice_append_slice bs 0 17 1, Bytes.slice_append_slice bs 0 18 2]
  exact Core.slice_length hlength

/-- The shorter core comes back. -/
theorem restores {scaling : Scaling} {bs : Bytes} (hlength : bs.length = size)
    (hgrid : scaling.Restores bs) : (Slot.legacyCore scaling).Restores bs := by
  intro p hp
  have hlength : bs.length = 20 := hlength
  simp only [Slot.legacyCore, decode, Core.decodeCommon, Core.natural, List.cons_append,
    List.nil_append, List.forall_mem_cons, List.not_mem_nil, false_imp_iff, implies_true,
    and_true] at hp
  obtain ⟨hx, hy, hz, hintensity, hreturn, hreturns, hdirection, hedge, hclass, hflags, hangle,
    huser, hsource⟩ := hp
  have hreturnByte : Core.numberAt bs 14 1 < 256 := Core.numberAt_lt bs (by omega)
  have hclassByte : Core.numberAt bs 15 1 < 256 := Core.numberAt_lt bs (by omega)
  have huserByte : Core.numberAt bs 17 1 < 256 := Core.numberAt_lt bs (by omega)
  have hintensityWord : Core.numberAt bs 12 2 < 65536 := Core.numberAt_lt bs (by omega)
  have hsourceWord : Core.numberAt bs 18 2 < 65536 := Core.numberAt_lt bs (by omega)
  have hrank : (p.valueOrZero .scanAngleRank).whole Dimension.scanAngleRank.name .one =
      .ok (Core.integerAt bs 16 1) := by
    rw [Core.valueOrZero_eq hangle, Value.whole_eq_ok]
    exact ⟨Core.nearestInt?_integerAt (w := .one) bs 16 (by decide),
      ByteOrder.ofComplement_bounds .one _⟩
  simp only [Slot.legacyCore, encode, bind_eq_ok, pure_eq_ok]
  refine ⟨_, Core.coordinate_eq hx hgrid.x, _, Core.coordinate_eq hy hgrid.y,
    _, Core.coordinate_eq hz hgrid.z, _, Core.word_eq hintensity hintensityWord,
    _, Core.byte_eq hreturn (by omega), _, Core.byte_eq hreturns (by omega),
    _, Core.byte_eq hdirection (by omega), _, Core.byte_eq hedge (by omega),
    _, Core.byte_eq hclass (by omega), _, Core.byte_eq hflags (by omega), _, hrank,
    _, Core.byte_eq huser huserByte, _, Core.word_eq hsource hsourceWord, ?_⟩
  -- Masking once more keeps bits that were read from the same byte.
  have hreturnBits : Core.numberAt bs 14 1 % 8 % 8 + 8 * (Core.numberAt bs 14 1 / 8 % 8 % 8) +
      64 * (Core.numberAt bs 14 1 / 64 % 2 % 2) + 128 * (Core.numberAt bs 14 1 / 128 % 2) =
      Core.numberAt bs 14 1 := by omega
  have hclassBits : Core.numberAt bs 15 1 % 32 % 32 + 32 * (Core.numberAt bs 15 1 / 32 % 8) =
      Core.numberAt bs 15 1 := by omega
  rw [hreturnBits, hclassBits]
  exact bytes_eq hlength

end LegacyCore

namespace ExtendedCore

/-- The numbers of a core in their bytes again. -/
theorem bytes_eq {bs : Bytes} (hlength : bs.length = 22) :
    Value.signedBytes .four (Core.integerAt bs 0 4) ++
        Value.signedBytes .four (Core.integerAt bs 4 4) ++
        Value.signedBytes .four (Core.integerAt bs 8 4) ++
        Value.unsignedBytes .two (Core.numberAt bs 12 2) ++
        Value.unsignedBytes .one (Core.numberAt bs 14 1) ++
        Value.unsignedBytes .one (Core.numberAt bs 15 1) ++
        Value.unsignedBytes .one (Core.numberAt bs 16 1) ++
        Value.unsignedBytes .one (Core.numberAt bs 17 1) ++
        Value.signedBytes .two (Core.integerAt bs 18 2) ++
        Value.unsignedBytes .two (Core.numberAt bs 20 2) = bs := by
  rw [Core.commonBytes_eq (by omega), Core.unsignedBytes_numberAt .one bs 14 1 rfl (by omega),
    Core.unsignedBytes_numberAt .one bs 15 1 rfl (by omega),
    Core.unsignedBytes_numberAt .one bs 16 1 rfl (by omega),
    Core.unsignedBytes_numberAt .one bs 17 1 rfl (by omega),
    Core.signedBytes_integerAt .two bs 18 2 rfl (by omega),
    Core.unsignedBytes_numberAt .two bs 20 2 rfl (by omega), Bytes.slice_append_slice bs 0 14 1,
    Bytes.slice_append_slice bs 0 15 1, Bytes.slice_append_slice bs 0 16 1,
    Bytes.slice_append_slice bs 0 17 1, Bytes.slice_append_slice bs 0 18 2,
    Bytes.slice_append_slice bs 0 20 2]
  exact Core.slice_length hlength

/-- The longer core comes back. -/
theorem restores {scaling : Scaling} {bs : Bytes} (hlength : bs.length = size)
    (hgrid : scaling.Restores bs) (hangle : ScanAngleRestores (Core.integerAt bs 18 2)) :
    (Slot.extendedCore scaling).Restores bs := by
  intro p hp
  have hlength : bs.length = 22 := hlength
  simp only [Slot.extendedCore, decode, Core.decodeCommon, Core.natural, List.cons_append,
    List.nil_append, List.forall_mem_cons, List.not_mem_nil, false_imp_iff, implies_true,
    and_true] at hp
  obtain ⟨hx, hy, hz, hintensity, hreturn, hreturns, hflags, hchannel, hdirection, hedge, hclass,
    huser, hrank, hsource⟩ := hp
  have hreturnByte : Core.numberAt bs 14 1 < 256 := Core.numberAt_lt bs (by omega)
  have hflagByte : Core.numberAt bs 15 1 < 256 := Core.numberAt_lt bs (by omega)
  have hclassByte : Core.numberAt bs 16 1 < 256 := Core.numberAt_lt bs (by omega)
  have huserByte : Core.numberAt bs 17 1 < 256 := Core.numberAt_lt bs (by omega)
  have hintensityWord : Core.numberAt bs 12 2 < 65536 := Core.numberAt_lt bs (by omega)
  have hsourceWord : Core.numberAt bs 20 2 < 65536 := Core.numberAt_lt bs (by omega)
  have hunits : angle p = .ok (Core.integerAt bs 18 2) := by
    rw [angle, Core.number_eq hrank, Value.whole_eq_ok]
    exact ⟨hangle, ByteOrder.ofComplement_bounds .two _⟩
  simp only [Slot.extendedCore, encode, bind_eq_ok, pure_eq_ok]
  refine ⟨_, Core.coordinate_eq hx hgrid.x, _, Core.coordinate_eq hy hgrid.y,
    _, Core.coordinate_eq hz hgrid.z, _, Core.word_eq hintensity hintensityWord,
    _, Core.byte_eq hreturn (by omega), _, Core.byte_eq hreturns (by omega),
    _, Core.byte_eq hflags (by omega), _, Core.byte_eq hchannel (by omega),
    _, Core.byte_eq hdirection (by omega), _, Core.byte_eq hedge (by omega),
    _, Core.byte_eq hclass hclassByte, _, Core.byte_eq huser huserByte, _, hunits,
    _, Core.word_eq hsource hsourceWord, ?_⟩
  -- Masking once more keeps bits that were read from the same byte.
  have hreturnBits : Core.numberAt bs 14 1 % 16 % 16 + 16 * (Core.numberAt bs 14 1 / 16 % 16) =
      Core.numberAt bs 14 1 := by omega
  have hflagBits : Core.numberAt bs 15 1 % 16 % 16 + 16 * (Core.numberAt bs 15 1 / 16 % 4 % 4) +
      64 * (Core.numberAt bs 15 1 / 64 % 2 % 2) + 128 * (Core.numberAt bs 15 1 / 128 % 2) =
      Core.numberAt bs 15 1 := by omega
  rw [hreturnBits, hflagBits]
  exact bytes_eq hlength

end ExtendedCore

namespace Slot

variable {bs : Bytes}

theorem restores_word (start : Nat) (d : Dimension) (h : bs.length = 2) :
    (word start d).Restores bs := by
  intro p hp
  have hlt : ByteOrder.little.toNat bs < 65536 := by
    have := ByteOrder.toNat_lt .little bs
    rwa [h] at this
  have hnumber : Core.word p d = .ok (ByteOrder.little.toNat bs) :=
    Core.word_eq (hp _ List.mem_cons_self) hlt
  simp only [word, hnumber]
  exact congrArg Except.ok (Value.unsignedBytes_toNat (w := .two) h)

theorem restores_gpsTime (start : Nat) (h : bs.length = 8) : (gpsTime start).Restores bs := by
  intro p hp
  have hnumber := Core.number_eq (hp _ List.mem_cons_self)
  simp only [gpsTime, hnumber]
  exact congrArg Except.ok (Value.doubleBytes_toNat h)

end Slot

namespace ExtraDim

variable {dim : ExtraDim}

theorem isNonstandard_eq_false (h : dim.transform = .identity) :
    dim.transform.isNonstandard = false := by
  rw [h]
  rfl

/-- A value is stored as it is without a transform. -/
theorem stored_of_identity (h : dim.transform = .identity) (scalar : Scalar) (p : Point) :
    dim.stored scalar p = p.valueOrZero dim.id := by
  unfold stored Point.valueOrZero
  rw [isNonstandard_eq_false h]
  cases p.get? dim.id with
  | none => rfl
  | some v => cases v <;> rfl

/-- A value is read as it is without a transform. -/
theorem decode_of_identity (h : dim.transform = .identity) {scalar : Scalar}
    (hstorage : dim.storage = .scalar scalar) (bs : Bytes) :
    dim.decode bs = Value.decode scalar bs := by
  simp only [decode, hstorage, isNonstandard_eq_false h, Bool.false_eq_true, if_false]

/-- A value is stored as it is in a number without a transform. -/
theorem encode_of_identity (h : dim.transform = .identity) {scalar : Scalar}
    (hstorage : dim.storage = .scalar scalar) (p : Point) :
    dim.encode p = (p.valueOrZero dim.id).encode scalar dim.name := by
  simp only [encode, hstorage, stored_of_identity h]

/-- An extra dimension without a transform comes back. -/
theorem restores_slot (h : dim.transform = .identity) {bs : Bytes} (hlength : bs.length = dim.size)
    (hnumber : dim.storage = .scalar .single →
      (Single.mk (.ofNat (ByteOrder.little.toNat bs))).isNaN = false) : dim.slot.Restores bs := by
  intro p hp
  have hvalue : p.get? dim.id = some (dim.decode bs) := hp _ List.mem_cons_self
  show dim.encode p = .ok bs
  cases hstorage : dim.storage with
  | raw n =>
    have hwidth : bs.length = n.toNat := by rw [hlength, size, hstorage, Storage.size]
    have hbytes : dim.decode bs = .bytes bs := by simp only [decode, hstorage]
    rw [hbytes] at hvalue
    simp only [encode, hstorage, hvalue, Bytes.padded, ← hwidth, List.take_length, Nat.sub_self,
      List.replicate_zero, List.append_nil]
  | scalar type =>
    have hwidth : bs.length = type.size := by rw [hlength, size, hstorage, Storage.size]
    rw [decode_of_identity h hstorage] at hvalue
    rw [encode_of_identity h hstorage, Core.valueOrZero_eq hvalue]
    exact Value.encode_decode hwidth (fun hsingle ↦ hnumber (hsingle ▸ hstorage)) dim.name

end ExtraDim

/-! ## Layouts -/

namespace RecordLayout

variable {number : UInt8} {format : FormatLayout} {scaling : Scaling} {dims : List ExtraDim}
  {record : Bytes}

/-- The core restores its bytes of a record. -/
theorem restores_coreSlot (hgrid : scaling.Restores record)
    (hangle : format.extended = true → ScanAngleRestores (Core.integerAt record 18 2))
    (hend : format.coreSize ≤ record.length) :
    (format.coreSlot scaling).Restores (record.slice 0 format.coreSize) := by
  have hlegacy : 12 ≤ LegacyCore.size := by decide
  have hextended : 18 + 2 ≤ ExtendedCore.size := by decide
  have hcore {size : Nat} (hsize : 12 ≤ size) : scaling.Restores (record.slice 0 size) := by
    constructor
    · rw [Core.integerAt_slice (by omega)]
      exact hgrid.x
    · rw [Core.integerAt_slice (by omega)]
      exact hgrid.y
    · rw [Core.integerAt_slice (by omega)]
      exact hgrid.z
  unfold FormatLayout.coreSize at hend ⊢
  unfold FormatLayout.coreSlot
  cases hkind : format.extended with
  | false =>
    rw [hkind] at hend
    exact LegacyCore.restores (Bytes.length_slice (by simpa using hend)) (hcore hlegacy)
  | true =>
    rw [hkind] at hend
    have hunits : ScanAngleRestores (Core.integerAt (record.slice 0 ExtendedCore.size) 18 2) := by
      rw [Core.integerAt_slice hextended]
      exact hangle hkind
    exact ExtendedCore.restores (Bytes.length_slice (by simpa using hend))
      (hcore (Nat.le_trans (by decide) hextended)) hunits

/-- A slot that only some formats have restores its bytes. -/
theorem restores_of_mem_optionalSlots {s : Slot} (hs : s ∈ format.optionalSlots) {bs : Bytes}
    (hlength : bs.length = s.width) : s.Restores bs := by
  simp only [FormatLayout.optionalSlots, List.flatMap_append, List.mem_append, List.mem_flatMap,
    Option.mem_toList, Option.map_eq_some_iff] at hs
  rcases hs with (⟨_, ⟨start, -, rfl⟩, hs⟩ | ⟨_, ⟨start, -, rfl⟩, hs⟩) | ⟨_, ⟨start, -, rfl⟩, hs⟩
  · obtain rfl : s = .gpsTime start := by simpa [Section.slots] using hs
    exact Slot.restores_gpsTime start hlength
  · simp only [Section.slots, List.mem_cons, List.not_mem_nil, or_false] at hs
    rcases hs with rfl | rfl | rfl <;> exact Slot.restores_word _ _ hlength
  · obtain rfl : s = .word start .infrared := by simpa [Section.slots] using hs
    exact Slot.restores_word _ _ hlength

/-- Every slot of a layout restores its bytes of a record. -/
theorem restores_of_mem_slots (hformat : FormatLayout.ofNumber? number = some format)
    (hplain : ∀ dim ∈ dims, dim.transform = .identity) (hgrid : scaling.Restores record)
    (hangle : format.extended = true → ScanAngleRestores (Core.integerAt record 18 2))
    (hnumber : ∀ dim ∈ dims, dim.storage = .scalar .single →
      (Single.mk (.ofNat (Core.numberAt record dim.start 4))).isNaN = false) {s : Slot}
    (hs : s ∈ (ofFormat number scaling dims).slots) (hend : s.start + s.width ≤ record.length) :
    s.Restores (record.slice s.start s.width) := by
  have hlength := Bytes.length_slice hend
  rw [slots_ofFormat hformat, List.mem_cons, List.mem_append] at hs
  rcases hs with rfl | hs | hs
  · obtain ⟨hstart, hwidth⟩ := format.coreSlot_range scaling
    rw [hstart, hwidth] at hend ⊢
    exact restores_coreSlot hgrid hangle (by omega)
  · exact restores_of_mem_optionalSlots hs hlength
  · obtain ⟨dim, hdim, rfl⟩ := List.mem_map.1 hs
    refine ExtraDim.restores_slot (hplain dim hdim) hlength fun hsingle ↦ ?_
    have hsize : dim.size = 4 := by rw [ExtraDim.size, hsingle, Storage.size, Scalar.size]
    have hvalue := hnumber dim hdim hsingle
    rwa [Core.numberAt, ← hsize] at hvalue

/-- The parts of a record in their places. -/
def partsOf (l : RecordLayout) (record : Bytes) : List (Nat × Bytes) :=
  l.slots.map fun s ↦ (s.start, record.slice s.start s.width)

/-- A point that the fields of a record were set of is written into the parts of this record, as no
dimension is set twice. -/
theorem parts_setAll_fields {l : RecordLayout} (hroom : l.recordLength ≤ record.length)
    (hnodup : ((l.fields record).map Prod.fst).Nodup)
    (hrestores : ∀ s ∈ l.slots, s.start + s.width ≤ record.length →
      s.Restores (record.slice s.start s.width)) (p : Point) :
    l.parts (p.setAll (l.fields record)) = .ok (l.partsOf record) := by
  apply mapM_eq_ok_of_forall
  intro s hs
  have hencode : s.encode (p.setAll (l.fields record)) = .ok (record.slice s.start s.width) := by
    apply hrestores s hs (end_le_of_mem_slots hs hroom)
    intro f hf
    exact Point.get?_setAll_of_mem hnodup (List.mem_flatMap.2 ⟨s, hs, hf⟩)
  rw [Slot.part, hencode]
  rfl

/-- The parts of a record cover the bytes of its slots. -/
theorem exists_partsOf_iff {l : RecordLayout} (hroom : l.recordLength ≤ record.length) (i : Nat) :
    (∃ part ∈ l.partsOf record, part.1 ≤ i ∧ i < part.1 + part.2.length) ↔
      ∃ s ∈ l.slots, s.range.Holds i := by
  have hwidth {s : Slot} (hs : s ∈ l.slots) : (record.slice s.start s.width).length = s.width :=
    Bytes.length_slice (end_le_of_mem_slots hs hroom)
  simp only [partsOf, List.mem_map]
  constructor
  · rintro ⟨_, ⟨s, hs, rfl⟩, hholds⟩
    rw [hwidth hs] at hholds
    exact ⟨s, hs, hholds⟩
  · rintro ⟨s, hs, hholds⟩
    refine ⟨_, ⟨s, hs, rfl⟩, ?_⟩
    rw [hwidth hs]
    exact hholds

/-- A point that was read from a record is written into all fields of any other record as they were,
and the bytes between the fields are left alone. -/
theorem pack_of_load (hformat : FormatLayout.ofNumber? number = some format)
    (hplain : ∀ dim ∈ dims, dim.transform = .identity) (hdistinct : (dims.map ExtraDim.id).Nodup)
    (hother : ∀ dim ∈ dims, dim.id ∉ format.dimensions)
    (hroom : (ofFormat number scaling dims).recordLength ≤ record.length)
    (hgrid : scaling.Restores record)
    (hangle : format.extended = true → ScanAngleRestores (Core.integerAt record 18 2))
    (hnumber : ∀ dim ∈ dims, dim.storage = .scalar .single →
      (Single.mk (.ofNat (Core.numberAt record dim.start 4))).isNaN = false)
    (p : Point) {buffer : Bytes} (hlength : buffer.length = record.length) :
    ∃ q packed, (ofFormat number scaling dims).load record p = .ok true q ∧
      (ofFormat number scaling dims).pack q buffer = .ok true packed ∧
      packed.length = record.length ∧
      ∀ i, packed[i]? = if ∃ r ∈ format.ranges ++ dims.map ExtraDim.range, r.Holds i
        then record[i]? else buffer[i]? := by
  have hparts := parts_setAll_fields hroom
    (nodup_map_fst_fields hformat scaling hdistinct hother record)
    (fun s hs ↦ restores_of_mem_slots hformat hplain hgrid hangle hnumber hs) p
  have hbuffer : (ofFormat number scaling dims).recordLength ≤ buffer.length := by rwa [hlength]
  have hends := end_le_of_mem_parts hparts hbuffer
  have hsource : ∀ part ∈ (ofFormat number scaling dims).partsOf record,
      record.slice part.1 part.2.length = part.2 := by
    intro part hpart
    obtain ⟨s, hs, rfl⟩ := List.mem_map.1 hpart
    rw [Bytes.length_slice (end_le_of_mem_slots hs hroom)]
  refine ⟨p.setAll ((ofFormat number scaling dims).fields record),
    buffer.patch ((ofFormat number scaling dims).partsOf record), ?_, ?_, ?_, fun i ↦ ?_⟩
  · rw [load_of_room hroom, isConfigured_ofFormat hformat]
  · rw [pack_of_parts hbuffer hparts, isConfigured_ofFormat hformat]
  · rw [Bytes.length_patch hends, hlength]
  · rw [Bytes.getElem?_patch_of_source hends hsource]
    simp only [exists_partsOf_iff hroom, exists_slot_holds hformat]

/-- A record of format 9 with its waveform packet, a gap of one byte, two extra dimensions and two
bytes behind them. The packet, the gap and the tail are those of the buffer. -/
theorem pack_of_load_counting :
    let record : Bytes := (List.range 68).map UInt8.ofNat
    let scaling : Scaling := .replicate ⟨.ofRatio false 1 100, .ofInt 100⟩
    let dims : List ExtraDim := [.plain "a" (.scalar .single) 60, .plain "b" (.raw 2) 64]
    ∃ q packed, (ofFormat 9 scaling dims).load record .empty = .ok true q ∧
      (ofFormat 9 scaling dims).pack q (List.replicate 68 255) = .ok true packed ∧
      packed.length = 68 ∧ packed[29]? = some 29 ∧ packed[30]? = some 255 ∧
      packed[59]? = some 255 ∧ packed[60]? = some 60 ∧ packed[65]? = some 65 ∧
      packed[66]? = some 255 := by
  intro record scaling dims
  have hformat : FormatLayout.ofNumber? 9 = some (.modern 59 none none (some 30)) := rfl
  have hroom : (ofFormat 9 scaling dims).recordLength ≤ record.length := by decide +kernel
  have hgrid : scaling.Restores record := by constructor <;> decide +kernel
  have hsame : (List.replicate 68 255 : Bytes).length = record.length := by decide +kernel
  obtain ⟨q, packed, hload, hpack, hlength, hbytes⟩ := pack_of_load hformat
    (by decide +kernel) (by decide +kernel) (by decide +kernel) hroom hgrid
    (fun _ ↦ by decide +kernel) (by decide +kernel) .empty hsame
  refine ⟨q, packed, hload, hpack, hlength, ?_, ?_, ?_, ?_, ?_, ?_⟩ <;> rw [hbytes] <;>
    decide +kernel

end RecordLayout

end LasFile
