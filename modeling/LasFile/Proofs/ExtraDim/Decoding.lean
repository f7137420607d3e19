import LasFile.Proofs.ExtraDim.Contiguous
import LasFile.Proofs.ExtraDim.Encoding
import LasFile.Proofs.Outcome

/-!
# Entries of any record

A record of the whole length is read whatever its bytes are, and refused for its type code alone.
What it gives is bounded by the widths of its fields: an entry has three components at most and a
run of bytes at most 255 bytes, so that its dimensions take as many bytes as the entry says.
-/

namespace LasFile.Descriptor

open Outcome Read

/-- The byte of a record that holds the type code. -/
def typeByte (record : Bytes) : UInt8 := record.getD 2 0

/-- The byte of a record that holds the options. -/
def optionByte (record : Bytes) : UInt8 := record.getD 3 0

/-- The entry with the texts of a record, which says nothing else yet. -/
def texts (record : Bytes) : Descriptor :=
  { blank with
    name := FixedText.decode (record.slice 4 32)
    description := FixedText.decode (record.slice 160 32) }

/-- The entry with what the options byte says of it. -/
def withOptions (d : Descriptor) (options : UInt8) (scale offset : Vector Double 3) : Descriptor :=
  if d.scalar.isNone then { d with rawSize := options.toNat, scale := clear, offset := clear }
  else
    { d with
      scale := if options &&& scaleOption = 0 then clear else scale
      offset := if options &&& offsetOption = 0 then clear else offset }

/-! ## Reading through a record -/

/-- All that can go wrong with a whole record is its type code. -/
theorem exists_decode_eq {record : Bytes} (hlength : record.length = recordSize) :
    ∃ scale offset : Vector Double 3, decode record =
      (withOptions · (optionByte record) scale offset) <$>
        (texts record).withTypeCode (typeByte record) := by
  have hsize : record.length = 192 := hlength
  obtain ⟨scale, hscale⟩ : ∃ values, Read.times Read.double 3 (.standing .little record 112) =
      .ok values (.standing .little record 136) :=
    (takes_double .little).exists_times (by omega)
  obtain ⟨offset, hoffset⟩ : ∃ values, Read.times Read.double 3 (.standing .little record 136) =
      .ok values (.standing .little record 160) :=
    (takes_double .little).exists_times (by omega)
  have hcode : UInt8.ofNat (ByteOrder.little.toNat (record.slice 2 1)) = typeByte record :=
    ofNat_slice_one .little (by omega)
  have hoptions : UInt8.ofNat (ByteOrder.little.toNat (record.slice 3 1)) = optionByte record :=
    ofNat_slice_one .little (by omega)
  -- Each read stays within the 192 bytes, so that none is left to fail but the last step.
  have hread : read (.standing .little record 0) =
      match (texts record).withTypeCode (typeByte record) with
      | .ok d => .ok (d.withOptions (optionByte record) scale offset) (.standing .little record 192)
      | .error e => .error e (.standing .little record 192) := by
    unfold read
    rw [Stateful.bind_of_ok (skip_standing 2 record 0), (takes_u8 .little).bind_of_le (by omega),
      (takes_u8 .little).bind_of_le (by omega),
      (takes_text .little (by decide)).bind_of_le (by omega),
      Stateful.bind_of_ok (skip_standing 4 record _),
      Stateful.bind_of_ok (skip_standing (3 * 3 * 8) record _),
      Stateful.bind_of_ok hscale, Stateful.bind_of_ok hoffset,
      (takes_text .little (by decide)).bind_of_le (by omega)]
    simp only [Function.comp_apply, hcode, hoptions]
    rw [texts]
    cases Descriptor.withTypeCode _ (typeByte record) with
    | error e => rfl
    | ok d =>
      simp only [withOptions]
      cases d.scalar.isNone <;> rfl
  refine ⟨scale, offset, ?_⟩
  cases htyped : (texts record).withTypeCode (typeByte record) with
  | error e =>
    rw [htyped] at hread
    exact decode_of_error hread
  | ok d =>
    rw [htyped] at hread
    exact decode_of_ok hread

/-! ## Types of entries -/

theorem withTypeCode_of_lt {code : UInt8} (h : 30 < code) (d : Descriptor) :
    d.withTypeCode code = .error (.typeCode code) := by
  have hcode : 30 < code.toNat := UInt8.lt_iff_toNat_lt.1 h
  have hsome : code ≠ 0 := by
    rintro rfl
    exact absurd hcode (by decide)
  rw [withTypeCode, if_neg hsome]
  exact if_neg (by omega)

/-- The codes up to thirty stand for at most three components. -/
theorem typeOf_snd_le {code : UInt8} (h : code ≤ 30) : (typeOf code).2 ≤ 3 := by
  have hcode : code.toNat ≤ 30 := UInt8.le_iff_toNat_le.1 h
  unfold typeOf
  split
  · exact Nat.zero_le 3
  · show (code.toNat - 1) / 10 + 1 ≤ 3
    omega

/-- A whole record is refused for its type code alone. -/
theorem decode_eq_error_iff {record : Bytes} (hlength : record.length = recordSize) {e : Error} :
    decode record = .error e ↔ 30 < typeByte record ∧ e = .typeCode (typeByte record) := by
  obtain ⟨scale, offset, hdecode⟩ := exists_decode_eq hlength
  rw [hdecode]
  rcases UInt8.lt_or_le 30 (typeByte record) with hcode | hcode
  · rw [withTypeCode_of_lt hcode]
    simp [hcode, Functor.map, Except.map, eq_comm]
  · rw [withTypeCode_of_le hcode]
    simp [UInt8.not_lt.2 hcode, Functor.map, Except.map]

theorem exists_decode_eq_ok_iff {record : Bytes} (hlength : record.length = recordSize) :
    (∃ entry, decode record = .ok entry) ↔ typeByte record ≤ 30 := by
  rw [← UInt8.not_lt]
  cases hdecode : decode record with
  | error e =>
    have hcode := ((decode_eq_error_iff hlength).1 hdecode).1
    simp [hcode]
  | ok entry =>
    have hcode : ¬30 < typeByte record := fun hcode ↦ by
      have herror := (decode_eq_error_iff hlength).2 ⟨hcode, rfl⟩
      cases hdecode.symm.trans herror
    simp [hcode]

/-- An entry that a record can hold. -/
structure IsHeld (d : Descriptor) : Prop where
  /-- There are at most three components. -/
  fieldCount_le : d.fieldCount ≤ 3
  /-- The length of an untyped run is a byte. -/
  rawSize_le : d.rawSize ≤ 255

theorem isHeld_of_decode {record : Bytes} (hlength : record.length = recordSize)
    {entry : Descriptor} (h : decode record = .ok entry) : entry.IsHeld := by
  have hoptions : (optionByte record).toNat ≤ 255 := Nat.le_of_lt_succ (UInt8.toNat_lt _)
  obtain ⟨scale, offset, hdecode⟩ := exists_decode_eq hlength
  rw [hdecode, map_eq_ok] at h
  obtain ⟨d, htyped, rfl⟩ := h
  rcases UInt8.lt_or_le 30 (typeByte record) with hcode | hcode
  · rw [withTypeCode_of_lt hcode] at htyped
    cases htyped
  · have hcount := typeOf_snd_le hcode
    rw [withTypeCode_of_le hcode, Except.ok.injEq] at htyped
    subst htyped
    cases hscalar : (typeOf (typeByte record)).1 with
    | none => exact ⟨hcount, hoptions⟩
    | some s => exact ⟨hcount, Nat.zero_le 255⟩

/-! ## Dimensions of an entry -/

/-- The number of dimensions that an entry becomes. -/
def dimCount (d : Descriptor) : Nat :=
  match d.scalar with
  | none => if d.rawSize = 0 then 0 else 1
  | some _ => d.fieldCount

/-- How the dimensions of an entry are stored. -/
def storage (d : Descriptor) : Storage :=
  match d.scalar with
  | none => .raw (.ofNat d.rawSize)
  | some s => .scalar s

/-- The dimensions of an entry are named after its components. -/
theorem map_name_dims {d : Descriptor} (h : d.IsHeld) :
    d.dims.map (·.name) = (List.range d.dimCount).map d.componentName := by
  cases hscalar : d.scalar with
  | none =>
    simp only [dims, dimCount, hscalar]
    split <;> rfl
  | some s =>
    have hthree : ((d.scale.toList.zip d.offset.toList).take d.fieldCount).length =
        d.fieldCount := by
      simp [h.fieldCount_le]
    simp only [dims, dimCount, hscalar]
    apply List.ext_getElem
    · rw [List.length_map, List.length_mapIdx, hthree, List.length_map, List.length_range]
    · intro i hi hcount
      rw [List.getElem_map, List.getElem_mapIdx, List.getElem_map, List.getElem_range]

theorem storage_of_mem_dims {d : Descriptor} {dim : ExtraDim} (h : dim ∈ d.dims) :
    dim.storage = d.storage := by
  cases hscalar : d.scalar with
  | none =>
    simp only [dims, hscalar] at h
    split at h
    · cases h
    · obtain rfl := List.mem_singleton.1 h
      simp only [storage, hscalar]
      rfl
  | some s =>
    simp only [dims, hscalar, List.mem_mapIdx] at h
    obtain ⟨i, -, rfl⟩ := h
    simp only [storage, hscalar]

theorem length_dims {d : Descriptor} (h : d.IsHeld) : d.dims.length = d.dimCount := by
  rw [← List.length_map (·.name), map_name_dims h, List.length_map, List.length_range]

theorem size_eq_dimCount_mul {d : Descriptor} (h : d.IsHeld) :
    d.size = d.dimCount * d.storage.size := by
  cases hscalar : d.scalar with
  | none =>
    have hbyte : (UInt8.ofNat d.rawSize).toNat = d.rawSize :=
      UInt8.toNat_ofNat_of_lt' (Nat.lt_succ_of_le h.rawSize_le)
    simp only [size, dimCount, storage, hscalar, Storage.size, hbyte]
    split <;> omega
  | some s =>
    simp only [size, dimCount, storage, hscalar, Storage.size, Nat.mul_comm]

/-- The dimensions of an entry take the bytes of the entry. -/
theorem totalSize_dims {d : Descriptor} (h : d.IsHeld) : ExtraDim.totalSize d.dims = d.size := by
  have hsize : ∀ dim ∈ d.dims, dim.size = d.storage.size := fun dim hdim ↦
    congrArg Storage.size (storage_of_mem_dims hdim)
  rw [ExtraDim.totalSize_of_forall_size hsize, length_dims h, size_eq_dimCount_mul h]

/-- The dimensions of an entry by name and storage. -/
theorem map_stored_dims {d : Descriptor} (h : d.IsHeld) :
    d.dims.map (fun dim ↦ (dim.name, dim.storage)) =
      (List.range d.dimCount).map fun i ↦ (d.componentName i, d.storage) :=
  calc d.dims.map (fun dim ↦ (dim.name, dim.storage))
      = d.dims.map fun dim ↦ (dim.name, d.storage) := by
        refine List.map_congr_left fun dim hdim ↦ ?_
        rw [storage_of_mem_dims hdim]
    _ = (d.dims.map (·.name)).map fun name ↦ (name, d.storage) := by rw [List.map_map]; rfl
    _ = (List.range d.dimCount).map fun i ↦ (d.componentName i, d.storage) := by
        rw [map_name_dims h, List.map_map]
        rfl

/-- The dimensions of a record by name and storage, read off its bytes. An untyped run has as many
bytes as the options byte says and is left out if there are none; a vector has a dimension of its
type for each component. -/
def statedDims (record : Bytes) : List (String × Storage) :=
  match typeOf (typeByte record) with
  | (none, _) =>
    if optionByte record = 0 then [] else [((texts record).name, .raw (optionByte record))]
  | (some s, count) => (List.range count).map fun i ↦ ((texts record).componentName i, .scalar s)

theorem statedDims_of_decode {record : Bytes} (hlength : record.length = recordSize)
    {entry : Descriptor} (h : decode record = .ok entry) :
    statedDims record = entry.dims.map fun dim ↦ (dim.name, dim.storage) := by
  have hcode := (exists_decode_eq_ok_iff hlength).1 ⟨entry, h⟩
  rw [map_stored_dims (isHeld_of_decode hlength h)]
  obtain ⟨scale, offset, hdecode⟩ := exists_decode_eq hlength
  rw [hdecode, withTypeCode_of_le hcode, map_eq_ok] at h
  obtain ⟨d, hd, rfl⟩ := h
  obtain rfl := Except.ok.inj hd
  have hoptions : (optionByte record).toNat = 0 ↔ optionByte record = 0 := by
    rw [← UInt8.toNat_inj, UInt8.toNat_zero]
  unfold statedDims
  split
  next hrun =>
    simp only [withOptions, hrun, Option.isNone_none, if_true, dimCount, storage, hoptions,
      UInt8.ofNat_toNat]
    split <;> rfl
  next hvector =>
    simp only [withOptions, hvector, Option.isNone_some, dimCount, storage]
    rfl

end LasFile.Descriptor
