import LasFile.Proofs.Record.IntegerField

/-!
# Fields of extra dimensions

An extra dimension is read from the bytes that were written for it, as long as no later one is
placed over them. Where it has the name of a standard field, or of another extra dimension, the
last one of that name decides what is read.
-/

namespace LasFile

open Outcome

/-! ## Values of extra dimensions -/

/-- A small whole number comes back from every scalar without a transform. -/
theorem ExtraDim.exists_encode_of_isWhole {dim : ExtraDim} (h : dim.transform = .identity)
    {scalar : Scalar} (hstorage : dim.storage = .scalar scalar) {p : Point} {n : Nat}
    (hwhole : (p.valueOrZero dim.id).IsWhole n) (hn : n < 16) :
    ∃ part, dim.encode p = .ok part ∧ (dim.decode part).IsWhole n := by
  obtain ⟨part, hpart, hread⟩ := hwhole.exists_encode hn scalar dim.name
  refine ⟨part, ?_, ?_⟩
  · rw [encode_of_identity h hstorage, hpart]
  · rwa [decode_of_identity h hstorage]

/-! ## Extra dimensions in records -/

namespace RecordLayout

variable {number : UInt8} {format : FormatLayout} {scaling : Scaling}
  {before after : List ExtraDim} {dim : ExtraDim} {p : Point} {buffer packed : Bytes}

/-- The bytes of an extra dimension in a packed record. -/
theorem slice_extraDim_of_pack (hformat : FormatLayout.ofNumber? number = some format)
    (hapart : ∀ later ∈ after, dim.range.Apart later.range)
    (hroom : (ofFormat number scaling (before ++ dim :: after)).recordLength ≤ buffer.length)
    {configured : Bool}
    (hpack : (ofFormat number scaling (before ++ dim :: after)).pack p buffer =
      .ok configured packed) : dim.encode p = .ok (packed.slice dim.start dim.size) := by
  have hslots : (ofFormat number scaling (before ++ dim :: after)).slots =
      (format.coreSlot scaling :: (format.optionalSlots ++ before.map ExtraDim.slot)) ++
        dim.slot :: after.map ExtraDim.slot := by
    rw [slots_ofFormat hformat, List.map_append, List.map_cons, ← List.append_assoc]
    rfl
  refine slice_of_pack hslots (fun later hlater ↦ ?_) hroom hpack
  obtain ⟨behind, hmem, rfl⟩ := List.mem_map.1 hlater
  exact hapart behind hmem

/-- The last extra dimension of a name decides what is read for it. -/
theorem get?_setAll_fields_extraDim (hformat : FormatLayout.ofNumber? number = some format)
    (hlast : ∀ later ∈ after, later.id ≠ dim.id) (record : Bytes) (q : Point) :
    (q.setAll ((ofFormat number scaling (before ++ dim :: after)).fields record)).get? dim.id =
      some (dim.decode (record.slice dim.start dim.size)) := by
  have hslots : (ofFormat number scaling (before ++ dim :: after)).slots =
      ((format.coreSlot scaling :: (format.optionalSlots ++ before.map ExtraDim.slot)) ++
        [dim.slot]) ++ after.map ExtraDim.slot := by
    rw [slots_ofFormat hformat, List.map_append, List.map_cons]
    simp only [List.append_assoc, List.cons_append, List.nil_append]
  rw [fields, hslots, List.flatMap_append, List.flatMap_append, Point.setAll_append,
    Point.get?_setAll_of_notMem, Point.setAll_append]
  · exact (Point.get?_set ..).trans (if_pos rfl)
  · rw [List.map_flatMap, List.mem_flatMap]
    rintro ⟨s, hs, hcarried⟩
    obtain ⟨later, hlater, rfl⟩ := List.mem_map.1 hs
    exact hlast later hlater (List.mem_singleton.1 hcarried).symm

/-- What is read of an extra dimension is what was written for it. -/
theorem extraDim_of_pack (hformat : FormatLayout.ofNumber? number = some format)
    (hapart : ∀ later ∈ after, dim.range.Apart later.range)
    (hlast : ∀ later ∈ after, later.id ≠ dim.id)
    (hroom : (ofFormat number scaling (before ++ dim :: after)).recordLength ≤ buffer.length)
    {configured : Bool}
    (hpack : (ofFormat number scaling (before ++ dim :: after)).pack p buffer =
      .ok configured packed) :
    ∃ part, dim.encode p = .ok part ∧ ∀ q : Point, (q.setAll
      ((ofFormat number scaling (before ++ dim :: after)).fields packed)).get? dim.id =
        some (dim.decode part) :=
  ⟨_, slice_extraDim_of_pack hformat hapart hroom hpack,
    get?_setAll_fields_extraDim hformat hlast packed⟩

/-- Dimensions of different names that were placed without gaps are all read as they were
written. -/
theorem extraDim_of_encode (hformat : FormatLayout.ofNumber? number = some format)
    {given : List ExtraDim} (hdistinct : (given.map ExtraDim.id).Nodup)
    (hdim : dim ∈ ExtraDim.contiguous format.baseSize given) {record : Bytes}
    (hencode : (ofFormat number scaling (ExtraDim.contiguous format.baseSize given)).encode
      (format.recordLength given) p = .ok record) :
    ∃ part, dim.encode p = .ok part ∧ ∀ q : Point, (q.setAll ((ofFormat number scaling
      (ExtraDim.contiguous format.baseSize given)).fields record)).get? dim.id =
        some (dim.decode part) := by
  obtain ⟨before, after, hsplit⟩ := List.append_of_mem hdim
  have hplaces := ExtraDim.pairwise_contiguous format.baseSize given
  have hnames := ExtraDim.map_contiguous ExtraDim.id (fun _ _ ↦ rfl) format.baseSize given
  have hroom := recordLength_ofFormat_le hformat scaling given
  obtain ⟨configured, hpack⟩ := encode_eq_ok.1 hencode
  rw [hsplit] at hplaces hnames hroom hpack ⊢
  rw [← hnames, List.map_append, List.map_cons] at hdistinct
  have hbehind : ∀ later ∈ after, dim.limit ≤ later.start :=
    (List.pairwise_cons.1 (List.pairwise_append.1 hplaces).2.1).1
  have hapart : ∀ later ∈ after, dim.range.Apart later.range :=
    fun later hlater ↦ ByteRange.apart_of_le (hbehind later hlater)
  have hlast : ∀ later ∈ after, later.id ≠ dim.id := by
    intro later hlater hsame
    have hfirst := (List.nodup_cons.1 (List.nodup_append.1 hdistinct).2.1).1
    exact hfirst (hsame ▸ List.mem_map_of_mem hlater)
  have hbuffer : (ofFormat number scaling (before ++ dim :: after)).recordLength ≤
      (List.replicate (format.recordLength given) (0 : UInt8)).length := by
    rwa [List.length_replicate]
  exact extraDim_of_pack hformat hapart hlast hbuffer hpack

end RecordLayout

end LasFile
