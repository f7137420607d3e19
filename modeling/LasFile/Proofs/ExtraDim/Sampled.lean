import LasFile.Proofs.ExtraDim.Description
import LasFile.Proofs.Record.ExtraField

/-!
# Dimensions of sample points

A sample point settles one dimension for each of its fields that a format has no place for, unless
the field is a run of bytes that is empty or too long. The dimensions have the names of the fields,
and their storage loses nothing of the values.
-/

namespace LasFile

open Outcome

/-- A point has the fields that it carries values for. -/
theorem Point.get?_eq_some_iff {p : Point} {d : Dimension} {v : Value} :
    p.get? d = some v ↔ (d, v) ∈ p.fields := by
  rw [get?, List.lookup_eq_some_iff]
  constructor
  · rintro ⟨before, after, hsplit, -⟩
    rw [hsplit]
    exact List.mem_append_right _ List.mem_cons_self
  · intro hmem
    obtain ⟨before, after, hsplit⟩ := List.append_of_mem hmem
    refine ⟨before, after, hsplit, fun field hfield ↦ ?_⟩
    have hnodup := p.nodup
    rw [hsplit, List.map_append, List.map_cons, List.nodup_append] at hnodup
    have hother := hnodup.2.2 _ (List.mem_map_of_mem hfield) d List.mem_cons_self
    simpa using hother.symm

namespace Selection

/-! ## Storage of values -/

/-- Only runs of bytes that are empty or too long have no storage. -/
theorem exists_storageOf {v : Value}
    (hbytes : ∀ bs, v = .bytes bs → 0 < bs.length ∧ bs.length ≤ 255) :
    ∃ storage, storageOf v = some storage := by
  cases v with
  | bytes bs =>
    obtain ⟨hsome, hshort⟩ := hbytes bs rfl
    have hkept : ¬(bs.isEmpty || 255 < bs.length) = true := by
      rw [Bool.or_eq_true, List.isEmpty_iff_length_eq_zero, decide_eq_true_eq]
      omega
    exact ⟨_, if_neg hkept⟩
  | _ => exact ⟨_, rfl⟩

/-- A run of bytes has the storage of its length. -/
theorem storageOf_bytes {bs : Bytes} {storage : Storage}
    (h : storageOf (.bytes bs) = some storage) :
    ∃ n : UInt8, storage = .raw n ∧ n.toNat = bs.length ∧ n ≠ 0 := by
  simp only [storageOf] at h
  split at h
  next => cases h
  next hkept =>
    cases h
    rw [Bool.or_eq_true, List.isEmpty_iff_length_eq_zero, decide_eq_true_eq] at hkept
    have hlength : (UInt8.ofNat bs.length).toNat = bs.length :=
      UInt8.toNat_ofNat_of_lt' (by simp only [UInt8.size]; omega)
    refine ⟨_, rfl, hlength, fun hzero ↦ ?_⟩
    rw [hzero, UInt8.toNat_zero] at hlength
    omega

theorem storageOf_ne_raw_zero {v : Value} {storage : Storage} (h : storageOf v = some storage) :
    storage ≠ .raw 0 := by
  cases v with
  | bytes bs =>
    obtain ⟨n, rfl, -, hn⟩ := storageOf_bytes h
    simpa using hn
  | _ =>
    cases h
    simp

/-- What is stored for a value in the storage that it selects is the value. -/
theorem exists_encode_of_storageOf {dim : ExtraDim} (hplain : dim.transform = .identity) {v : Value}
    (hstorage : storageOf v = some dim.storage) {p : Point} (hvalue : p.get? dim.id = some v) :
    ∃ part, dim.encode p = .ok part ∧ dim.decode part = v := by
  have hnumber : ∀ scalar, dim.storage = .scalar scalar →
      (∃ part, v.encode scalar dim.name = .ok part ∧ Value.decode scalar part = v) →
        ∃ part, dim.encode p = .ok part ∧ dim.decode part = v := by
    rintro scalar hscalar ⟨part, hpart, hread⟩
    refine ⟨part, ?_, ?_⟩
    · rw [ExtraDim.encode_of_identity hplain hscalar, Core.valueOrZero_eq hvalue, hpart]
    · rw [ExtraDim.decode_of_identity hplain hscalar, hread]
  cases v with
  | signed n =>
    exact hnumber _ (Option.some.inj hstorage).symm (Value.exists_encode_signed n dim.name)
  | unsigned n =>
    exact hnumber _ (Option.some.inj hstorage).symm (Value.exists_encode_unsigned n dim.name)
  | float x =>
    exact hnumber _ (Option.some.inj hstorage).symm (Value.exists_encode_float x dim.name)
  | bytes bs =>
    obtain ⟨n, hraw, hlength, -⟩ := storageOf_bytes hstorage
    refine ⟨bs, ?_, ?_⟩
    · simp only [ExtraDim.encode, hraw, hvalue, hlength, Bytes.padded, List.take_length,
        Nat.sub_self, List.replicate_zero, List.append_nil]
    · simp only [ExtraDim.decode, hraw]

/-! ## Dimensions of fields -/

/-- The dimensions that a sample point settles, not yet placed. -/
def carried (sample : Point) (format : UInt8) : List ExtraDim :=
  (unplaced sample format).filterMap fun (d, v) ↦
    (storageOf v).map fun storage ↦ .plain d.name storage 0

theorem sampled_eq (sample : Point) (format : UInt8) :
    sampled sample format = ExtraDim.contiguous 0 (carried sample format) := rfl

variable {sample : Point} {format : UInt8} {d : Dimension} {v : Value}

theorem mem_unplaced : (d, v) ∈ unplaced sample format ↔
    sample.get? d = some v ∧ d ∉ FormatLayout.dimensionsOf format := by
  rw [unplaced, List.mem_mergeSort, List.mem_filter, Point.get?_eq_some_iff]
  simp

/-- Each dimension stores a field that the format has no place for. -/
theorem mem_carried {dim : ExtraDim} : dim ∈ carried sample format ↔
    ∃ d v storage, sample.get? d = some v ∧ d ∉ FormatLayout.dimensionsOf format ∧
      storageOf v = some storage ∧ dim = .plain d.name storage 0 := by
  simp only [carried, List.mem_filterMap, Option.map_eq_some_iff, Prod.exists, mem_unplaced]
  constructor
  · rintro ⟨d, v, ⟨hvalue, hother⟩, storage, hstorage, rfl⟩
    exact ⟨d, v, storage, hvalue, hother, hstorage, rfl⟩
  · rintro ⟨d, v, storage, hvalue, hother, hstorage, rfl⟩
    exact ⟨d, v, ⟨hvalue, hother⟩, storage, hstorage, rfl⟩

/-- A description says everything about dimensions whose names fit their fields. -/
theorem isDescribable_of_mem_carried
    (hnames : ∀ d ∈ sample.dimensions, d.name.utf8ByteSize ≤ 32 ∧ '\x00' ∉ d.name.toList)
    {dim : ExtraDim} (h : dim ∈ carried sample format) : dim.IsDescribable := by
  obtain ⟨d, v, storage, hvalue, -, hstorage, rfl⟩ := mem_carried.1 h
  have hfield : d ∈ sample.dimensions := List.mem_map_of_mem (Point.get?_eq_some_iff.1 hvalue)
  obtain ⟨hfits, hnul⟩ := hnames d hfield
  exact ⟨rfl, storageOf_ne_raw_zero hstorage, hfits, hnul⟩

/-- No field stands twice among those that have no place. -/
theorem nodup_map_fst_unplaced : ((unplaced sample format).map Prod.fst).Nodup := by
  rw [unplaced, ((List.mergeSort_perm _ _).map Prod.fst).nodup_iff]
  exact sample.nodup.sublist (List.filter_sublist.map Prod.fst)

theorem ofName_name_of_mem_unplaced (hcanonical : ∀ d ∈ sample.dimensions, d.IsCanonical)
    (h : (d, v) ∈ unplaced sample format) : Dimension.ofName d.name = d :=
  hcanonical d (List.mem_map_of_mem (Point.get?_eq_some_iff.1 (mem_unplaced.1 h).1))

/-- Fields whose names lead back to them have dimensions of their own. -/
theorem nodup_map_id_carried (hcanonical : ∀ d ∈ sample.dimensions, d.IsCanonical) :
    ((carried sample format).map ExtraDim.id).Nodup := by
  have hfields : ((unplaced sample format).map Prod.fst).Nodup := nodup_map_fst_unplaced
  rw [List.Nodup, List.pairwise_map] at hfields ⊢
  rw [carried, List.pairwise_filterMap]
  refine hfields.imp_of_mem ?_
  rintro ⟨d, v⟩ ⟨e, w⟩ hd he hne dim hdim other hother hsame
  obtain ⟨storage, -, rfl⟩ := Option.map_eq_some_iff.1 hdim
  obtain ⟨_, -, rfl⟩ := Option.map_eq_some_iff.1 hother
  have hnames : Dimension.ofName d.name = Dimension.ofName e.name := hsame
  rw [ofName_name_of_mem_unplaced hcanonical hd, ofName_name_of_mem_unplaced hcanonical he]
    at hnames
  exact hne hnames

/-- A point that has what is stored for each dimension of a sample point has all fields of the
sample point that were given storage. -/
theorem get?_of_carried (hcanonical : ∀ d ∈ sample.dimensions, d.IsCanonical) {q : Point}
    (hdims : ∀ dim ∈ carried sample format, ∃ part,
      dim.encode sample = .ok part ∧ q.get? dim.id = some (dim.decode part))
    (d : Dimension) (v : Value) (hvalue : sample.get? d = some v)
    (hother : d ∉ FormatLayout.dimensionsOf format)
    (hbytes : ∀ bs, v = .bytes bs → 0 < bs.length ∧ bs.length ≤ 255) : q.get? d = some v := by
  obtain ⟨storage, hstorage⟩ := exists_storageOf hbytes
  let dim : ExtraDim := .plain d.name storage 0
  have hid : dim.id = d :=
    hcanonical d (List.mem_map_of_mem (Point.get?_eq_some_iff.1 hvalue))
  obtain ⟨stored, hstored, hread⟩ :=
    exists_encode_of_storageOf (show dim.transform = .identity from rfl) hstorage
      (hid.symm ▸ hvalue)
  obtain ⟨part, hpart, hq⟩ :=
    hdims dim (mem_carried.2 ⟨d, v, storage, hvalue, hother, hstorage, rfl⟩)
  obtain rfl : part = stored := Except.ok.inj (hpart.symm.trans hstored)
  rw [← hid, hq, hread]

end Selection

end LasFile
