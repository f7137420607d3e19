import LasFile.Proofs.Record.ExtraField
import LasFile.Proofs.Record.Footprint

/-!
# Dimensions that a point does not carry

A dimension of the format that a point does not carry is written like the number zero. So is an
extra dimension that stores zero as zero. One with a transform that moves zero is not: what is
missing is stored as zero bytes, while an explicit zero is put on the grid first.
-/

namespace LasFile

open Outcome

/-! ## Zero bytes -/

theorem ByteOrder.toNat_replicate_zero (width : Nat) :
    little.toNat (List.replicate width 0) = 0 := by
  induction width with
  | zero => rfl
  | succ width ih =>
    have hrest : ofLowFirst (List.replicate width 0) = 0 := ih
    show ofLowFirst (0 :: List.replicate width 0) = 0
    rw [ofLowFirst, hrest]
    rfl

/-- The bytes of a number are zero exactly if nothing of it is left in that many bytes. -/
theorem ByteOrder.bytes_eq_zeros_iff {width n : Nat} :
    little.bytes width n = List.replicate width 0 ↔ n % capacity width = 0 := by
  rw [← toNat_bytes .little width n]
  constructor
  · intro h
    rw [h, toNat_replicate_zero]
  · intro h
    have hbytes := bytes_toNat .little (little.bytes width n)
    have hzeros := bytes_toNat .little (List.replicate width (0 : UInt8))
    rw [length_bytes, h] at hbytes
    rw [List.length_replicate, toNat_replicate_zero] at hzeros
    exact hbytes.symm.trans hzeros

/-- Whether a scalar stores a value as zero bytes. -/
def Scalar.TakesAsZero : Scalar → Value → Prop
  | signed _, v => v.nearestInt? = some 0
  | unsigned _, v => v.nearestInt? = some 0
  | single, v => v.toDouble.toSingle = ⟨0⟩
  | double, v => v.toDouble = .zero

namespace Value.IsWhole

variable {v : Value} {n : Nat}

/-- A number is no bytes. -/
theorem ne_bytes (h : v.IsWhole n) (bs : Bytes) : v ≠ .bytes bs := by
  rintro rfl
  simp [IsWhole] at h

theorem toDouble_zero (h : v.IsWhole 0) : v.toDouble = .zero := by
  rw [h.toDouble_eq (by decide)]
  decide

end Value.IsWhole

/-- Every scalar takes the number zero as zero. -/
theorem Scalar.takesAsZero_of_isWhole {z : Value} (hz : z.IsWhole 0) (s : Scalar) :
    s.TakesAsZero z := by
  have hnearest : z.nearestInt? = some 0 := hz.nearestInt?_eq (by decide)
  cases s with
  | signed w => exact hnearest
  | unsigned w => exact hnearest
  | single =>
    rw [TakesAsZero, hz.toDouble_zero]
    decide +kernel
  | double => exact hz.toDouble_zero

namespace Value

variable {v : Value} {dimension : String}

theorem encode_signed_eq_zeros_iff {w : Width} :
    v.encode (.signed w) dimension = .ok (List.replicate w.bytes 0) ↔ v.nearestInt? = some 0 := by
  have hroom : (256 : Int) ≤ ByteOrder.capacity w.bytes := by cases w <;> decide
  simp only [encode, map_eq_ok, whole_eq_ok, signedBytes, ByteOrder.bytes_eq_zeros_iff]
  constructor
  · rintro ⟨n, ⟨hn, hlow, hhigh⟩, hzero⟩
    have hplace := ByteOrder.ofComplement_complement w hlow hhigh
    rw [Nat.mod_eq_of_lt (ByteOrder.complement_lt w n)] at hzero
    rw [hzero] at hplace
    rw [hn, ← hplace]
    cases w <;> decide
  · intro h
    refine ⟨0, ⟨h, by omega, by omega⟩, ?_⟩
    cases w <;> decide

theorem encode_unsigned_eq_zeros_iff {w : Width} :
    v.encode (.unsigned w) dimension = .ok (List.replicate w.bytes 0) ↔ v.nearestInt? = some 0 := by
  simp only [encode, map_eq_ok, natural_eq_ok, unsignedBytes, ByteOrder.bytes_eq_zeros_iff]
  constructor
  · rintro ⟨n, ⟨hn, hfits⟩, hzero⟩
    rw [Nat.mod_eq_of_lt hfits] at hzero
    rw [hn, hzero]
    rfl
  · intro h
    exact ⟨0, ⟨h, by cases w <;> decide⟩, Nat.zero_mod _⟩

/-- The bytes of a stored value are zero exactly if the scalar takes it as zero. -/
theorem encode_eq_zeros_iff {type : Scalar} :
    v.encode type dimension = .ok (List.replicate type.size 0) ↔ type.TakesAsZero v := by
  cases type with
  | signed w => exact encode_signed_eq_zeros_iff
  | unsigned w => exact encode_unsigned_eq_zeros_iff
  | single =>
    have hlt : v.toDouble.toSingle.bits.toNat < ByteOrder.capacity 4 :=
      v.toDouble.toSingle.bits.toNat_lt
    rw [encode, Except.ok.injEq, singleBytes, Scalar.size, ByteOrder.bytes_eq_zeros_iff,
      Nat.mod_eq_of_lt hlt, Scalar.TakesAsZero, Single.mk.injEq, ← UInt32.toNat_inj]
    rfl
  | double =>
    have hlt : v.toDouble.bits.toNat < ByteOrder.capacity 8 := v.toDouble.bits.toNat_lt
    rw [encode, Except.ok.injEq, doubleBytes, Scalar.size, ByteOrder.bytes_eq_zeros_iff,
      Nat.mod_eq_of_lt hlt, Scalar.TakesAsZero, Double.zero, Double.mk.injEq, ← UInt64.toNat_inj]
    rfl

end Value

/-! ## Extra dimensions -/

namespace ExtraDim

/-- Whether an explicit zero is stored as zero. A transform may move it on the grid. -/
def StoresZero (dim : ExtraDim) : Prop :=
  dim.transform.isNonstandard = true → match dim.storage with
    | .raw _ => True
    | .scalar (.signed _) => (dim.transform.toStored .zero).nearestInt? = some 0
    | .scalar (.unsigned _) => (dim.transform.toStored .zero).nearestInt? = some 0
    | .scalar .single => (dim.transform.onGrid .zero).toSingle = ⟨0⟩
    | .scalar .double => dim.transform.onGrid .zero = .zero

variable {dim : ExtraDim} {p q : Point} {z : Value}

/-- What is missing is stored as zero bytes, with a transform or without. -/
theorem encode_none (h : p.get? dim.id = none) :
    dim.encode p = .ok (List.replicate dim.size 0) := by
  cases hstorage : dim.storage with
  | raw size => simp only [encode, hstorage, h, ExtraDim.size, Storage.size]
  | scalar s =>
    rw [encode_scalar hstorage, stored, h, ExtraDim.size, hstorage]
    exact Value.encode_eq_zeros_iff.2 (s.takesAsZero_of_isWhole (.inl rfl))

/-- What is stored in a number for an explicit zero. -/
theorem stored_zero (hz : z.IsWhole 0) (h : q.get? dim.id = some z) (s : Scalar) :
    dim.stored s q = if dim.transform.isNonstandard then
      .float (if s.isFloat then dim.transform.onGrid .zero else dim.transform.toStored .zero)
      else z := by
  simp only [stored, h]
  cases z with
  | bytes bs => exact absurd rfl (hz.ne_bytes bs)
  | _ =>
    simp only [hz.toDouble_zero]
    cases dim.transform.isNonstandard <;> cases s.isFloat <;> rfl

/-- An explicit zero is stored as zero bytes exactly if the transform leaves it where it is. -/
theorem encode_zero_iff (hz : z.IsWhole 0) (h : q.get? dim.id = some z) :
    dim.encode q = .ok (List.replicate dim.size 0) ↔ dim.StoresZero := by
  cases hstorage : dim.storage with
  | raw size =>
    simp only [encode, StoresZero, hstorage, h, ExtraDim.size, Storage.size, implies_true, iff_true]
    split
    next bs hbs => exact absurd (Option.some.inj hbs) (hz.ne_bytes bs)
    next => rfl
  | scalar s =>
    have hsize : dim.size = s.size := by rw [ExtraDim.size, hstorage, Storage.size]
    rw [encode_scalar hstorage, hsize, Value.encode_eq_zeros_iff, stored_zero hz h]
    unfold StoresZero
    rw [hstorage]
    cases dim.transform.isNonstandard with
    | true =>
      cases s <;> simp [Scalar.TakesAsZero, Scalar.isFloat, Value.nearestInt?, Value.toDouble]
    | false => simpa using s.takesAsZero_of_isWhole hz

end ExtraDim

/-! ## Points -/

/-- Whether a point carries what another one does, and the number zero for those dimensions of a
list that the other one lacks. -/
structure Point.FillsWithZero (p q : Point) (ds : List Dimension) : Prop where
  kept : ∀ d v, p.get? d = some v → q.get? d = some v
  filled : ∀ d ∈ ds, p.get? d = none → ∃ z : Value, z.IsWhole 0 ∧ q.get? d = some z

namespace Point.FillsWithZero

variable {p q : Point} {ds : List Dimension} {d : Dimension}

theorem alike (h : p.FillsWithZero q ds) (hd : d ∈ ds) :
    (p.valueOrZero d).Alike (q.valueOrZero d) := by
  cases hvalue : p.get? d with
  | some v =>
    rw [valueOrZero, valueOrZero, hvalue, h.kept d v hvalue]
    exact .refl _
  | none =>
    obtain ⟨z, hz, hfilled⟩ := h.filled d hd hvalue
    have hzero : (Value.unsigned 0).IsWhole 0 := .inl rfl
    rw [valueOrZero, valueOrZero, hvalue, hfilled]
    exact hzero.alike hz (by decide)

theorem agrees {l : FormatLayout} (h : p.FillsWithZero q ds) (hl : ∀ d ∈ l.dimensions, d ∈ ds) :
    l.Agrees p q where
  number d hd := by
    rw [number_eq_toDouble, number_eq_toDouble]
    exact (h.alike (hl d hd)).toDouble
  alike d hd _ := h.alike (hl d hd)

theorem encode_eq {dim : ExtraDim} (h : p.FillsWithZero q ds) (hdim : dim.id ∈ ds)
    (hzero : p.get? dim.id = none → dim.StoresZero) : dim.encode p = dim.encode q := by
  cases hvalue : p.get? dim.id with
  | some v => exact ExtraDim.encode_congr (hvalue.trans (h.kept _ v hvalue).symm)
  | none =>
    obtain ⟨z, hz, hfilled⟩ := h.filled _ hdim hvalue
    rw [ExtraDim.encode_none hvalue, (ExtraDim.encode_zero_iff hz hfilled).2 (hzero hvalue)]

end Point.FillsWithZero

/-! ## Records -/

namespace RecordLayout

variable {number : UInt8} {format : FormatLayout}

/-- A point and the same point with zero put in for what it lacks. They are written alike if every
extra dimension that is missing stores zero as zero. Where no two extra dimensions share a byte, an
accepted point has zero bytes in the place of a missing one, and the two are written alike in no
other case. -/
theorem pack_absent (hformat : FormatLayout.ofNumber? number = some format) (scaling : Scaling)
    {dims : List ExtraDim} {p q : Point}
    (hfills : p.FillsWithZero q (format.dimensions ++ dims.map ExtraDim.id)) :
    ((∀ dim ∈ dims, p.get? dim.id = none → dim.StoresZero) → ∀ buffer,
      (ofFormat number scaling dims).pack p buffer =
        (ofFormat number scaling dims).pack q buffer) ∧
    (dims.Pairwise (fun a b ↦ a.range.Apart b.range) → ∀ buffer packed : Bytes,
      (ofFormat number scaling dims).recordLength ≤ buffer.length →
      (ofFormat number scaling dims).pack p buffer = .ok true packed →
      (∀ dim ∈ dims, p.get? dim.id = none →
        packed.slice dim.start dim.size = List.replicate dim.size 0) ∧
      ((ofFormat number scaling dims).pack q buffer = .ok true packed ↔
        ∀ dim ∈ dims, p.get? dim.id = none → dim.StoresZero)) := by
  have hid : ∀ dim ∈ dims, dim.id ∈ format.dimensions ++ dims.map ExtraDim.id := fun dim hdim ↦
    List.mem_append_right _ (List.mem_map_of_mem hdim)
  have hequal : (∀ dim ∈ dims, p.get? dim.id = none → dim.StoresZero) → ∀ buffer,
      (ofFormat number scaling dims).pack p buffer =
        (ofFormat number scaling dims).pack q buffer := by
    intro hzero buffer
    have hagrees := hfills.agrees fun d hd ↦ List.mem_append_left _ hd
    rw [pack_congr_ofFormat hformat hagrees fun dim hdim ↦
      hfills.encode_eq (hid dim hdim) (hzero dim hdim)]
  refine ⟨hequal, fun hapart buffer packed hroom hpack ↦ ?_⟩
  have hslice (r : Point) (hr : (ofFormat number scaling dims).pack r buffer = .ok true packed)
      (dim : ExtraDim) (hdim : dim ∈ dims) :
      dim.encode r = .ok (packed.slice dim.start dim.size) := by
    obtain ⟨before, after, rfl⟩ := List.append_of_mem hdim
    have hlater := (List.pairwise_cons.1 (List.pairwise_append.1 hapart).2.1).1
    exact slice_extraDim_of_pack hformat hlater hroom hr
  have hzeros : ∀ dim ∈ dims, p.get? dim.id = none →
      packed.slice dim.start dim.size = List.replicate dim.size 0 := by
    intro dim hdim hnone
    have hstored := hslice p hpack dim hdim
    rw [ExtraDim.encode_none hnone, Except.ok.injEq] at hstored
    exact hstored.symm
  refine ⟨hzeros, fun hother dim hdim hnone ↦ ?_, fun hzero ↦ ?_⟩
  · obtain ⟨z, hz, hfilled⟩ := hfills.filled dim.id (hid dim hdim) hnone
    rw [← ExtraDim.encode_zero_iff hz hfilled, ← hzeros dim hdim hnone]
    exact hslice q hother dim hdim
  · rw [← hequal hzero buffer, hpack]

/-- On a grid that begins at ten a missing number is read back as ten, and not written like an
explicit zero. Without a transform nothing tells the two apart. -/
theorem pack_absent_offset :
    let moved : ExtraDim := ⟨"moved", .scalar (.signed .four), ⟨.one, .ofInt 10⟩, 20⟩
    let plain : ExtraDim := .plain "plain" (.scalar (.signed .four)) 20
    let zeros : Point := .setAll .empty
      ([.x, .y, .z, .intensity, .returnNumber, .numberOfReturns, .scanDirectionFlag,
        .edgeOfFlightLine, .classification, .classFlags, .scanAngleRank, .userData,
        .pointSourceId, .user "moved", .user "plain"].map (·, Value.unsigned 0))
    (∃ packed, (ofFormat 0 .identity [moved]).pack .empty (List.replicate 24 255) =
        .ok true packed ∧ moved.decode (packed.slice 20 4) = .float (.ofInt 10) ∧
      (ofFormat 0 .identity [moved]).pack zeros (List.replicate 24 255) ≠ .ok true packed) ∧
    (ofFormat 0 .identity [plain]).pack .empty (List.replicate 24 255) =
      (ofFormat 0 .identity [plain]).pack zeros (List.replicate 24 255) := by
  intro moved plain zeros
  have hformat : FormatLayout.ofNumber? 0 = some (.legacy 20 none none none) := rfl
  have hfilled (name : String) (hname : name = "moved" ∨ name = "plain") :
      Point.empty.FillsWithZero zeros
        ((FormatLayout.legacy 20 none none none).dimensions ++ [.user name]) := by
    have hzeros : ∀ d ∈ (FormatLayout.legacy 20 none none none).dimensions ++
        [.user "moved", .user "plain"], zeros.get? d = some (.unsigned 0) := by decide
    refine ⟨by simp, fun d hd _ ↦ ⟨.unsigned 0, .inl rfl, hzeros d ?_⟩⟩
    rcases List.mem_append.1 hd with hd | hd
    · exact List.mem_append_left _ hd
    · rw [List.mem_singleton.1 hd]
      rcases hname with rfl | rfl <;> simp
  constructor
  · have hparts : ∃ parts, (ofFormat 0 .identity [moved]).parts .empty = .ok parts :=
      isSome_toOption.1 (by decide +kernel)
    obtain ⟨parts, hparts⟩ := hparts
    have hroom : (ofFormat 0 .identity [moved]).recordLength ≤
        (List.replicate 24 255 : Bytes).length := by decide
    have hpack := pack_of_parts hroom hparts
    obtain ⟨hbytes, hsame⟩ := (pack_absent hformat .identity (hfilled "moved" (.inl rfl))).2
      (by simp) _ _ hroom hpack
    refine ⟨_, hpack, ?_, fun hother ↦ ?_⟩
    · have hslice := hbytes moved (by simp) rfl
      have hread : moved.decode (List.replicate 4 0) = .float (.ofInt 10) := by decide +kernel
      rw [← hread]
      exact congrArg _ hslice
    · have hzero := hsame.1 hother moved (by simp) rfl (by decide +kernel)
      exact absurd hzero (by decide +kernel)
  · exact (pack_absent hformat .identity (hfilled "plain" (.inr rfl))).1 (by
      intro dim hdim _ hmoved
      obtain rfl := List.mem_singleton.1 hdim
      exact absurd hmoved (by decide)) _

end RecordLayout

end LasFile
