import LasFile.Proofs.Byte.Placement
import LasFile.Proofs.ExtraDim.Contiguous
import LasFile.Proofs.ExtraDim.Encoding
import LasFile.Proofs.Outcome
import LasFile.Vlr.Basic

/-!
# Descriptions of extra dimensions

The entries that declare dimensions for writing are read back as these dimensions, with their names
and storage and without a transform, as long as the names fit their fields.
-/

namespace LasFile.Descriptor

open Outcome Read

/-! ## Declared dimensions -/

/-- The record of an entry that declares a single number. -/
theorem encode_declare (name : String) (s : Scalar) (description : String) :
    (declare name (some s) description).encode =
      .ok (Item.encodeAll .little
        ((declare name (some s) description).items (.ofNat (10 * (1 - 1) + s.code)) 0)) :=
  encode_of_some rfl (Nat.le_refl 1) (Nat.le_add_left 1 2)

/-- The record of an entry that declares a run of some bytes. -/
theorem encode_raw_of_ne_zero (name description : String) {n : UInt8} (hn : n ≠ 0) :
    (raw name n.toNat description).encode =
      .ok (Item.encodeAll .little ((raw name n.toNat description).items 0 n)) := by
  have hone : 1 ≤ n.toNat := Nat.pos_of_ne_zero fun h ↦ hn (UInt8.toNat_inj.1 h)
  have hmost : n.toNat ≤ 255 := Nat.le_of_lt_succ n.toNat_lt
  have hrecord := encode_of_none (d := raw name n.toNat description) (Nat.zero_le 3) rfl hone hmost
  rwa [raw, UInt8.ofNat_toNat] at hrecord

/-- A run of no bytes has no record. -/
theorem encode_raw {name description : String} {n : UInt8} {part : Bytes}
    (h : (raw name n.toNat description).encode = .ok part) :
    n ≠ 0 ∧ part = Item.encodeAll .little ((raw name n.toNat description).items 0 n) := by
  have hn : n ≠ 0 := by
    rintro rfl
    cases h
  rw [encode_raw_of_ne_zero name description hn, Except.ok.injEq] at h
  exact ⟨hn, h.symm⟩

/-- An entry without factors is one dimension without a transform. -/
theorem dims_of_clear {d : Descriptor} {s : Scalar} (hscalar : d.scalar = some s)
    (hcount : d.fieldCount = 1) (hscale : d.scale = clear) (hoffset : d.offset = clear) :
    d.dims = [.plain d.name (.scalar s) 0] := by
  have hunset : Double.zero.ieeeEq .zero = true := by decide
  have hfirst : (clear.toList.zip clear.toList).take 1 = [(.zero, .zero)] := by decide
  simp only [dims, hscalar, hcount, hscale, hoffset, hfirst, List.mapIdx_cons, List.mapIdx_nil,
    componentName, hunset, if_true]
  rfl

/-- The dimension that is found where one was declared: its name is what the field holds of it. -/
def found (dim : ExtraDim) : ExtraDim := .plain (FixedText.stored 32 dim.name) dim.storage 0

/-- A declared dimension is read back from its record. -/
theorem decode_encode_ofDim {dim : ExtraDim} {part : Bytes} (h : (ofDim dim).encode = .ok part) :
    part.length = recordSize ∧ ∃ entry, decode part = .ok entry ∧ entry.dims = [found dim] := by
  cases hstorage : dim.storage with
  | scalar s =>
    simp only [ofDim, hstorage, encode_declare, Except.ok.injEq] at h
    obtain rfl := h
    have hread := (yields_items (declare dim.name (some s) "") _ _ 0
      (withTypeCode_vector _ s (Nat.le_refl 1) (Nat.le_add_left 1 2))).decode []
    rw [List.append_nil] at hread
    refine ⟨length_items _ _ _, _, hread, ?_⟩
    rw [dims_of_clear rfl rfl rfl rfl]
    simp only [declare, found, hstorage]
  | raw n =>
    simp only [ofDim, hstorage] at h
    obtain ⟨hn, rfl⟩ := encode_raw h
    have hread := (yields_items (raw dim.name n.toNat "") _ 0 n rfl).decode []
    rw [List.append_nil] at hread
    refine ⟨length_items _ _ _, _, hread, ?_⟩
    have hsize : n.toNat ≠ 0 := fun hzero ↦ hn (UInt8.toNat_inj.1 hzero)
    simp only [dims, raw, declare, Option.isNone_none, if_true, if_neg hsize, UInt8.ofNat_toNat,
      found, hstorage]

/-! ## Whole descriptions -/

/-- The declared dimensions are found in their description, in order and without gaps. -/
theorem toExtraDims_encodeAll {dims : List ExtraDim} {data : Bytes}
    (h : encodeAll (dims.map ofDim) = .ok data) (start : Int) :
    toExtraDims data start = .ok (ExtraDim.contiguous start (dims.map found)) := by
  obtain ⟨parts, hparts, rfl⟩ := map_eq_ok.1 h
  clear h
  have hentries : (∀ part ∈ parts, part.length = recordSize) ∧ ∃ entries,
      parts.mapM decode = .ok entries ∧ entries.flatMap Descriptor.dims = dims.map found := by
    induction dims generalizing parts with
    | nil =>
      obtain rfl := mapM_nil_eq_ok.1 hparts
      exact ⟨by simp, [], rfl, rfl⟩
    | cons dim dims ih =>
      obtain ⟨part, rest, hpart, hrest, rfl⟩ := mapM_cons_eq_ok.1 hparts
      obtain ⟨hlength, entry, hentry, hdim⟩ := decode_encode_ofDim hpart
      obtain ⟨hlengths, entries, hdecoded, hmap⟩ := ih rest hrest
      refine ⟨List.forall_mem_cons.2 ⟨hlength, hlengths⟩, entry :: entries,
        mapM_cons_eq_ok.2 ⟨entry, entries, hentry, hdecoded, rfl⟩, ?_⟩
      rw [List.flatMap_cons, hdim, hmap]
      rfl
  obtain ⟨hlengths, entries, hdecoded, hmap⟩ := hentries
  simp only [toExtraDims, Bytes.chunks_flatten (by decide) hlengths, hdecoded, Bind.bind,
    Except.bind, hmap]
  rfl

/-- Only the description of no dimensions is empty. -/
theorem eq_nil_of_encodeAll_eq_nil {dims : List ExtraDim}
    (h : encodeAll (dims.map ofDim) = .ok []) : dims = [] := by
  have hnone : toExtraDims [] 0 = .ok [] := rfl
  have hfound := (toExtraDims_encodeAll h 0).symm.trans hnone
  cases dims with
  | nil => rfl
  | cons dim dims => simp [ExtraDim.contiguous] at hfound

/-- A dimension that takes some bytes has a record. -/
theorem exists_encode_ofDim {dim : ExtraDim} (hbytes : dim.storage ≠ .raw 0) :
    ∃ part, (ofDim dim).encode = .ok part := by
  cases hstorage : dim.storage with
  | scalar s => exact ⟨_, by rw [ofDim, hstorage, encode_declare]⟩
  | raw n =>
    have hn : n ≠ 0 := fun h ↦ hbytes (by rw [hstorage, h])
    exact ⟨_, by rw [ofDim, hstorage, encode_raw_of_ne_zero dim.name "" hn]⟩

end LasFile.Descriptor

namespace LasFile.ExtraDim

open Outcome

/-! ## Dimensions that are given back -/

/-- A dimension that a description says everything about but its place. -/
structure IsDescribable (dim : ExtraDim) : Prop where
  /-- Values are stored as they are. -/
  identity : dim.transform = .identity
  /-- The storage is a number or a run of some bytes. -/
  takesBytes : dim.storage ≠ .raw 0
  /-- The name fits its field. -/
  fits : dim.name.utf8ByteSize ≤ 32
  noNul : '\x00' ∉ dim.name.toList

instance (dim : ExtraDim) : Decidable dim.IsDescribable :=
  decidable_of_iff (dim.transform = .identity ∧ dim.storage ≠ .raw 0 ∧
      dim.name.utf8ByteSize ≤ 32 ∧ '\x00' ∉ dim.name.toList)
    ⟨fun ⟨h₁, h₂, h₃, h₄⟩ ↦ ⟨h₁, h₂, h₃, h₄⟩, fun ⟨h₁, h₂, h₃, h₄⟩ ↦ ⟨h₁, h₂, h₃, h₄⟩⟩

theorem IsDescribable.found_eq {dim : ExtraDim} (h : dim.IsDescribable) :
    Descriptor.found dim = { dim with offset := 0 } := by
  rw [Descriptor.found, FixedText.stored_eq_self h.fits h.noNul, ExtraDim.plain, ← h.identity]

/-- The record that describes dimensions without gaps gives them back, moved to where its walk
starts, as long as each entry says everything and all places are 32 bit numbers. -/
theorem toExtraDims_extraBytes {dims : List ExtraDim} {start : Int}
    (hdims : ∀ dim ∈ dims, dim.IsDescribable) (hplaced : contiguous 0 dims = dims)
    (hlow : Int32.minValue.toInt ≤ start)
    (hhigh : start + totalSize dims ≤ Int32.maxValue.toInt) :
    ∃ v, Vlr.extraBytes (dims.map Descriptor.ofDim) = .ok v ∧
      Descriptor.toExtraDims v.data start = .ok (relocate start dims) ∧
      ∀ dim ∈ relocate start dims, Int32.minValue.toInt ≤ dim.offset ∧
        dim.offset + dim.size ≤ Int32.maxValue.toInt := by
  have hmoved : contiguous start dims = relocate start dims := by
    rw [← relocate_contiguous, hplaced]
  have hencoded : ∀ dim ∈ dims, ∃ part, (Descriptor.encode ∘ Descriptor.ofDim) dim = .ok part :=
    fun dim hdim ↦ Descriptor.exists_encode_ofDim (hdims dim hdim).takesBytes
  obtain ⟨parts, hparts⟩ := exists_mapM_eq_ok hencoded
  have hdata : Descriptor.encodeAll (dims.map Descriptor.ofDim) = .ok parts.flatten := by
    rw [Descriptor.encodeAll, List.mapM_map, hparts]
    rfl
  refine ⟨_, by rw [Vlr.extraBytes, hdata]; rfl, ?_, fun dim hdim ↦ ?_⟩
  · have hfound : ∀ dim ∈ dims, ∃ place, Descriptor.found dim = { dim with offset := place } :=
      fun dim hdim ↦ ⟨0, (hdims dim hdim).found_eq⟩
    calc Descriptor.toExtraDims parts.flatten start
        = .ok (contiguous start (dims.map Descriptor.found)) :=
          Descriptor.toExtraDims_encodeAll hdata start
      _ = .ok (contiguous start dims) := by rw [contiguous_map hfound]
      _ = .ok (relocate start dims) := by rw [hmoved]
  · rw [← hmoved] at hdim
    have hplace := offset_of_mem_contiguous hdim
    omega

/-- Numbers and runs of bytes in turn, with a name that fills its field and one that two
dimensions share. -/
theorem toExtraDims_extraBytes_mixed :
    ∃ v, Vlr.extraBytes ([.plain "Temperature" (.scalar .double) 0, .plain "Flags" (.raw 255) 8,
        .plain "Höhe über dem Grund, gemittelt" (.scalar (.signed .two)) 263,
        .plain "Flags" (.raw 1) 265].map Descriptor.ofDim) = .ok v ∧
      Descriptor.toExtraDims v.data (-3) =
        .ok [.plain "Temperature" (.scalar .double) (-3), .plain "Flags" (.raw 255) 5,
          .plain "Höhe über dem Grund, gemittelt" (.scalar (.signed .two)) 260,
          .plain "Flags" (.raw 1) 262] := by
  have hdims : ∀ dim ∈ ([.plain "Temperature" (.scalar .double) 0, .plain "Flags" (.raw 255) 8,
      .plain "Höhe über dem Grund, gemittelt" (.scalar (.signed .two)) 263,
      .plain "Flags" (.raw 1) 265] : List ExtraDim), dim.IsDescribable := by
    decide +kernel
  have hlow : Int32.minValue.toInt ≤ -3 := by decide
  obtain ⟨v, hv, hread, -⟩ := toExtraDims_extraBytes hdims (by decide) hlow (by decide)
  exact ⟨v, hv, hread⟩

end LasFile.ExtraDim
