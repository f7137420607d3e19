import LasFile.Proofs.Byte.Placement
import LasFile.Proofs.ExtraDim.Decoding

/-!
# Descriptions of any bytes

The bytes of a description are read record by record, whatever they are. Each record becomes the
dimensions of its entry, which adjoin those of the records in front of it, so that a description
can be read in parts. The first record with an unknown type is all that can go wrong.
-/

namespace LasFile.Descriptor

open Outcome

/-- The type code of a record, by the number of records in front of it. -/
def codeAt (payload : Bytes) (i : Nat) : UInt8 := payload.getD (i * recordSize + 2) 0

/-- Bytes that entries take together in a point record. -/
def totalSize : List Descriptor → Nat
  | [] => 0
  | d :: ds => d.size + totalSize ds

/-- The dimensions of an entry, from some place on: one for each component, named after it, and
without gaps up to the place that the size of the entry leads to. -/
structure IsBlock (entry : Descriptor) (place : Int) (block : List ExtraDim) : Prop where
  length : block.length = entry.dimCount
  named : block.map (·.name) = (List.range entry.dimCount).map entry.componentName
  stored : ∀ dim ∈ block, dim.storage = entry.storage
  placed : ExtraDim.Adjoining place block (place + entry.size)

/-- The dimensions of entries, block by block, from some place on. -/
inductive Unfolds : Int → List Descriptor → List ExtraDim → Prop
  | nil (place : Int) : Unfolds place [] []
  | cons {place : Int} {entry : Descriptor} {entries : List Descriptor} {block dims : List ExtraDim}
    (hblock : IsBlock entry place block) (hrest : Unfolds (place + entry.size) entries dims) :
    Unfolds place (entry :: entries) (block ++ dims)

/-! ## Records of a description -/

/-- A description is the description of what its records decode to. -/
theorem toExtraDims_eq (payload : Bytes) (start : Int) : toExtraDims payload start =
    (fun entries ↦ ExtraDim.contiguous start (entries.flatMap dims)) <$>
      (payload.chunks recordSize).mapM decode := by
  rw [toExtraDims]
  cases (payload.chunks recordSize).mapM decode <;> rfl

theorem typeByte_slice (payload : Bytes) (i : Nat) :
    typeByte (payload.slice (i * recordSize) recordSize) = codeAt payload i := by
  have htwo : 2 < recordSize := by decide
  rw [typeByte, codeAt, List.getD_eq_getElem?_getD, List.getD_eq_getElem?_getD, Bytes.slice,
    List.getElem?_take_of_lt htwo, List.getElem?_drop]

/-- The records are decoded up to the first one with an unknown type. -/
theorem mapM_decode_eq_error_iff {payload : Bytes} {e : Error} :
    (payload.chunks recordSize).mapM decode = .error e ↔
      ∃ i < payload.length / recordSize, (∀ j < i, codeAt payload j ≤ 30) ∧
        30 < codeAt payload i ∧ e = .typeCode (codeAt payload i) := by
  -- A record of the description has the whole length, so that its type code decides.
  have hlength {i : Nat} (hi : i < payload.length / recordSize) :
      (payload.slice (i * recordSize) recordSize).length = recordSize :=
    Bytes.length_of_mem_chunks (by decide)
      (List.mem_of_getElem? (Bytes.getElem?_chunks_eq_some.2 ⟨hi, rfl⟩))
  simp only [mapM_eq_error_iff, Bytes.getElem?_chunks_eq_some]
  constructor
  · rintro ⟨i, _, ⟨hi, rfl⟩, herror, hbefore⟩
    rw [decode_eq_error_iff (hlength hi), typeByte_slice] at herror
    refine ⟨i, hi, fun j hj ↦ ?_, herror⟩
    have hlt : j < payload.length / recordSize := Nat.lt_trans hj hi
    have hok := hbefore j hj _ ⟨hlt, rfl⟩
    rwa [exists_decode_eq_ok_iff (hlength hlt), typeByte_slice] at hok
  · rintro ⟨i, hi, hbefore, herror⟩
    rw [← typeByte_slice, ← decode_eq_error_iff (hlength hi)] at herror
    refine ⟨i, _, ⟨hi, rfl⟩, herror, ?_⟩
    rintro j hj _ ⟨hlt, rfl⟩
    rw [exists_decode_eq_ok_iff (hlength hlt), typeByte_slice]
    exact hbefore j hj

theorem toExtraDims_eq_error_iff {payload : Bytes} {start : Int} {e : Error} :
    toExtraDims payload start = .error e ↔ (payload.chunks recordSize).mapM decode = .error e := by
  rw [toExtraDims_eq]
  cases (payload.chunks recordSize).mapM decode <;> simp [Functor.map, Except.map]

/-! ## Blocks of dimensions -/

theorem totalSize_flatMap_dims {entries : List Descriptor} (h : ∀ entry ∈ entries, entry.IsHeld) :
    ExtraDim.totalSize (entries.flatMap dims) = totalSize entries := by
  induction entries with
  | nil => rfl
  | cons entry entries ih =>
    obtain ⟨hentry, hentries⟩ := List.forall_mem_cons.1 h
    rw [List.flatMap_cons, ExtraDim.totalSize_append, totalSize_dims hentry, ih hentries, totalSize]

theorem isBlock_contiguous {entry : Descriptor} (h : entry.IsHeld) (place : Int) :
    IsBlock entry place (ExtraDim.contiguous place entry.dims) := by
  have hplaced := ExtraDim.adjoining_contiguous place entry.dims
  rw [totalSize_dims h] at hplaced
  refine ⟨?_, ?_, ?_, hplaced⟩
  · rw [ExtraDim.length_contiguous, length_dims h]
  · rw [ExtraDim.map_contiguous (·.name) fun _ _ ↦ rfl, map_name_dims h]
  · rw [ExtraDim.forall_mem_contiguous (P := (· = entry.storage)) (·.storage) fun _ _ ↦ rfl]
    exact fun dim hdim ↦ storage_of_mem_dims hdim

theorem unfolds_contiguous {entries : List Descriptor} (h : ∀ entry ∈ entries, entry.IsHeld)
    (place : Int) : Unfolds place entries (ExtraDim.contiguous place (entries.flatMap dims)) := by
  induction entries generalizing place with
  | nil => exact .nil place
  | cons entry entries ih =>
    obtain ⟨hentry, hentries⟩ := List.forall_mem_cons.1 h
    rw [List.flatMap_cons, ExtraDim.contiguous_append, totalSize_dims hentry]
    exact .cons (isBlock_contiguous hentry place) (ih hentries _)

theorem isHeld_of_mapM_decode {payload : Bytes} {entries : List Descriptor}
    (h : (payload.chunks recordSize).mapM decode = .ok entries) :
    ∀ entry ∈ entries, entry.IsHeld :=
  forall_mem_of_mapM_eq_ok h fun _ hrecord _ hdecode ↦
    isHeld_of_decode (Bytes.length_of_mem_chunks (by decide) hrecord) hdecode

/-! ## Descriptions in parts -/

/-- What follows whole records is read as if it stood by itself, behind their dimensions. -/
theorem toExtraDims_append {payload : Bytes} (hwhole : payload.length % recordSize = 0)
    {start : Int} {front : List ExtraDim} (h : toExtraDims payload start = .ok front)
    (rest : Bytes) : toExtraDims (payload ++ rest) start =
      (front ++ ·) <$> toExtraDims rest (start + ExtraDim.totalSize front) := by
  rw [toExtraDims_eq, map_eq_ok] at h
  obtain ⟨entries, hentries, rfl⟩ := h
  rw [toExtraDims_eq, toExtraDims_eq, Bytes.chunks_append (by decide) hwhole, List.mapM_append,
    hentries, ExtraDim.totalSize_contiguous]
  cases (rest.chunks recordSize).mapM decode with
  | error e => rfl
  | ok others =>
    simp [bind, Except.bind, pure, Except.pure, Functor.map, Except.map,
      ExtraDim.contiguous_append]

/-- A rest that is no whole record is left out. -/
theorem toExtraDims_append_of_lt {payload rest : Bytes} (hwhole : payload.length % recordSize = 0)
    (hrest : rest.length < recordSize) (start : Int) :
    toExtraDims (payload ++ rest) start = toExtraDims payload start := by
  rw [toExtraDims, toExtraDims, Bytes.chunks_append (by decide) hwhole, Bytes.chunks_of_lt hrest,
    List.append_nil]

/-- A description of any bytes is read record by record. It is refused for the first type that is
unknown, and otherwise each record becomes the dimensions of its entry, which adjoin from `start` on
up to the place that the sizes of all entries lead to. What follows whole records is read from that
place on, and bytes that are no whole record change nothing. -/
theorem toExtraDims_recordwise (payload : Bytes) (start : Int) :
    (∀ e, toExtraDims payload start = .error e ↔
      ∃ i < payload.length / recordSize, (∀ j < i, codeAt payload j ≤ 30) ∧
        30 < codeAt payload i ∧ e = .typeCode (codeAt payload i)) ∧
    (∀ dims, toExtraDims payload start = .ok dims → ∃ entries,
      (payload.chunks recordSize).mapM decode = .ok entries ∧
      Unfolds start entries dims ∧
      ExtraDim.Adjoining start dims (start + totalSize entries) ∧
      (∀ dim ∈ dims, start ≤ dim.offset ∧ dim.offset + dim.size ≤ start + totalSize entries) ∧
      (payload.length % recordSize = 0 → ∀ rest, toExtraDims (payload ++ rest) start =
        (dims ++ ·) <$> toExtraDims rest (start + totalSize entries))) ∧
    ∀ rest, payload.length % recordSize = 0 → rest.length < recordSize →
      toExtraDims (payload ++ rest) start = toExtraDims payload start := by
  refine ⟨fun e ↦ toExtraDims_eq_error_iff.trans mapM_decode_eq_error_iff, ?_,
    fun rest hwhole hrest ↦ toExtraDims_append_of_lt hwhole hrest start⟩
  intro dims hdims
  have hall := hdims
  rw [toExtraDims_eq, map_eq_ok] at hall
  obtain ⟨entries, hentries, rfl⟩ := hall
  have hheld := isHeld_of_mapM_decode hentries
  have hsize := totalSize_flatMap_dims hheld
  refine ⟨entries, hentries, unfolds_contiguous hheld start, ?_, ?_, ?_⟩
  · rw [← hsize]
    exact ExtraDim.adjoining_contiguous start _
  · rw [← hsize]
    exact fun dim hdim ↦ ExtraDim.offset_of_mem_contiguous hdim
  · intro hwhole rest
    rw [toExtraDims_append hwhole hdims, ExtraDim.totalSize_contiguous, hsize]

/-- The dimensions of a description by the bytes of its records: a record gives as many as its type
code says, named by its text and stored as its codes say, and all of them adjoin from `start` on. -/
theorem map_stored_of_toExtraDims {payload : Bytes} {start : Int} {dims : List ExtraDim}
    (h : toExtraDims payload start = .ok dims) :
    dims.map (fun dim ↦ (dim.name, dim.storage)) =
        (payload.chunks recordSize).flatMap statedDims ∧
      ExtraDim.Adjoining start dims (start + ExtraDim.totalSize dims) := by
  rw [toExtraDims_eq, map_eq_ok] at h
  obtain ⟨entries, hentries, rfl⟩ := h
  constructor
  · rw [ExtraDim.map_contiguous _ fun _ _ ↦ rfl, List.map_flatMap]
    exact (flatMap_of_mapM_eq_ok hentries fun record hrecord entry hentry ↦
      statedDims_of_decode (Bytes.length_of_mem_chunks (by decide) hrecord) hentry).symm
  · rw [ExtraDim.totalSize_contiguous]
    exact ExtraDim.adjoining_contiguous start _

/-- A run of no bytes, two components and a run of three bytes, before a rest of two bytes. -/
example : toExtraDims (Item.encodeAll .little
      (items { blank with name := "pad" } 0 0 ++ items { blank with name := "tilt" } 14 0 ++
        items { blank with name := "mark" } 0 3) ++ [1, 2]) (-4) =
    .ok [.plain "tilt" (.scalar (.signed .two)) (-4),
      .plain "tilt (1)" (.scalar (.signed .two)) (-2), .plain "mark" (.raw 3) 0] := by
  decide +kernel

end LasFile.Descriptor
