import LasFile.ExtraDim.Descriptor
import LasFile.Proofs.Byte.Reading

/-!
# Records of any entry

Whether an entry has a record is decided by its type and its sizes alone. The record is read back as
the entry with its texts cut and with nothing that a record does not hold.
-/

namespace LasFile.Scalar

theorem code_le (s : Scalar) : s.code ≤ 10 := by
  rcases s with w | w | _ | _ <;> (try cases w) <;> decide

/-- The code of a type says where it is listed. -/
theorem getElem?_coded_code (s : Scalar) : coded[s.code - 1]? = some s := by
  rcases s with w | w | _ | _ <;> (try cases w) <;> rfl

end LasFile.Scalar

namespace LasFile.Descriptor

open Read

/-! ## Reading what was written -/

/-- The factors and offsets of an entry that sets none. -/
def clear : Vector Double 3 := .replicate 3 .zero

/-- Zeros read as numbers. -/
theorem encodeAll_clear (order : ByteOrder) :
    Item.encodeAll order (clear.toList.map .double) = List.replicate 24 0 := by
  cases order <;> decide

/-- The zeros behind the name of an entry: values that are left out, factors, and offsets. -/
theorem encode_zeros (order : ByteOrder) : (Item.zeros (5 * 3 * 8)).encode order =
    (Item.zeros (3 * 3 * 8)).encode order ++ (Item.encodeAll order (clear.toList.map .double) ++
      Item.encodeAll order (clear.toList.map .double)) := by
  rw [encodeAll_clear]
  simp only [Item.encode, List.replicate_append_replicate]

theorem yields_zeros (order : ByteOrder) (n : Nat) :
    Yields order (Read.skip n) ((Item.zeros n).encode order) () := by
  have h : Yields order _ ((Item.zeros n).encode order) () := yields_skip _
  rwa [Item.length_encode] at h

/-- What is read from the record of an entry that sets no factors. -/
theorem yields_items (written entry : Descriptor) (code options : UInt8)
    (hentry : ({ blank with
      name := FixedText.stored 32 written.name
      description := FixedText.stored 32 written.description } : Descriptor).withTypeCode code =
        .ok entry) :
    Yields .little read (Item.encodeAll .little (written.items code options))
      { entry with
        rawSize := if entry.scalar.isNone then options.toNat else entry.rawSize
        scale := clear
        offset := clear } := by
  simp only [items, Item.encodeAll_cons, Item.encodeAll_nil, encode_zeros, List.append_assoc]
  refine (yields_zeros .little 2).bind ?_
  refine (yields_u8 code).bind ?_
  refine (yields_u8 options).bind ?_
  refine (yields_text written.name 32).bind ?_
  refine (yields_zeros .little 4).bind ?_
  refine (yields_zeros .little (3 * 3 * 8)).bind ?_
  refine (yields_times yields_double clear).bind ?_
  refine (yields_times yields_double clear).bind ?_
  refine (yields_text written.description 32).bind ?_
  simp only [hentry]
  cases entry.scalar.isNone with
  | true => exact yields_pure _
  | false =>
    simp only [Bool.false_eq_true, if_false]
    have hclear : ∀ mask, (if options &&& mask = 0 then Vector.replicate 3 Double.zero else clear) =
        clear := fun mask ↦ ite_self clear
    simp only [hclear]
    exact yields_pure _

/-- The record of an entry has the length of all of them. -/
theorem length_items (d : Descriptor) (code options : UInt8) :
    (Item.encodeAll .little (d.items code options)).length = recordSize := by
  simp [items, Item.size, recordSize]

/-! ## Type codes -/

/-- The code of a vector of at most three numbers is a byte. -/
theorem toNat_code (s : Scalar) {count : Nat} (hthree : count ≤ 3) :
    (UInt8.ofNat (10 * (count - 1) + s.code)).toNat = 10 * (count - 1) + s.code := by
  have hmost := s.code_le
  exact UInt8.toNat_ofNat_of_lt' (by simp only [UInt8.size]; omega)

theorem ofNat_code_ne_zero (s : Scalar) {count : Nat} (hthree : count ≤ 3) :
    UInt8.ofNat (10 * (count - 1) + s.code) ≠ 0 := by
  have hpos : 0 < s.code := Nat.succ_pos _
  intro h
  have hcode := toNat_code s hthree
  rw [h, UInt8.toNat_zero] at hcode
  omega

/-- The type and the number of components that a type code stands for. Code zero is an untyped run;
those behind it go through the scalars once for each number of components. -/
def typeOf (code : UInt8) : Option Scalar × Nat :=
  if code = 0 then (none, 0)
  else (Scalar.coded[(code.toNat - 1) % 10]?, (code.toNat - 1) / 10 + 1)

/-- The codes up to thirty set type and number of components, and nothing else. -/
theorem withTypeCode_of_le {code : UInt8} (h : code ≤ 30) (d : Descriptor) : d.withTypeCode code =
    .ok { d with scalar := (typeOf code).1, fieldCount := (typeOf code).2 } := by
  have hcode : code.toNat ≤ 30 := UInt8.le_iff_toNat_le.1 h
  by_cases hzero : code = 0
  · rw [withTypeCode, if_pos hzero, typeOf, if_pos hzero]
  · have hpositive : code.toNat ≠ 0 := fun hnat ↦ hzero (UInt8.toNat_inj.1 hnat)
    rw [withTypeCode, if_neg hzero, typeOf, if_neg hzero]
    exact if_pos (by omega)

/-- Type and number of components are found in the code of a vector again. -/
theorem typeOf_vector (s : Scalar) {count : Nat} (hone : 1 ≤ count) (hthree : count ≤ 3) :
    typeOf (.ofNat (10 * (count - 1) + s.code)) = (some s, count) := by
  have hpos : 0 < s.code := Nat.succ_pos _
  have hmost := s.code_le
  have hindex : (10 * (count - 1) + s.code - 1) % 10 = s.code - 1 := by omega
  have hcount : (10 * (count - 1) + s.code - 1) / 10 + 1 = count := by omega
  rw [typeOf, if_neg (ofNat_code_ne_zero s hthree)]
  simp only [toNat_code s hthree, hindex, hcount, s.getElem?_coded_code]

theorem withTypeCode_vector (entry : Descriptor) (s : Scalar) {count : Nat} (hone : 1 ≤ count)
    (hthree : count ≤ 3) : entry.withTypeCode (.ofNat (10 * (count - 1) + s.code)) =
      .ok { entry with scalar := some s, fieldCount := count } := by
  have hmost := s.code_le
  have hcode : UInt8.ofNat (10 * (count - 1) + s.code) ≤ 30 := by
    rw [UInt8.le_iff_toNat_le, toNat_code s hthree]
    change _ ≤ 30
    omega
  rw [withTypeCode_of_le hcode, typeOf_vector s hone hthree]

/-! ## Entries that have a record -/

/-- An entry whose type and sizes have a place in a record: a run of some bytes, or one to three
numbers of one type. -/
def HasRecord (d : Descriptor) : Prop :=
  d.fieldCount ≤ 3 ∧
    (d.scalar = none ∧ 1 ≤ d.rawSize ∧ d.rawSize ≤ 255 ∨ d.scalar ≠ none ∧ 1 ≤ d.fieldCount)

/-- What a record holds of an entry. -/
structure IsRecorded (written entry : Descriptor) : Prop where
  scalar : entry.scalar = written.scalar
  fieldCount : entry.fieldCount = if written.scalar = none then 0 else written.fieldCount
  rawSize : entry.rawSize = if written.scalar = none then written.rawSize else 0
  scale : entry.scale = .replicate 3 .zero
  offset : entry.offset = .replicate 3 .zero
  name : FixedText.IsCut 32 written.name entry.name
  description : FixedText.IsCut 32 written.description entry.description

/-- Why an entry has no record. The number of components comes first, then the type, then the length
of a run. -/
inductive IsRefused (d : Descriptor) : Error → Prop
  | fieldCount (hcount : 3 < d.fieldCount) : IsRefused d (.fieldCount d.fieldCount)
  | type {s : Scalar} (hscalar : d.scalar = some s) (hcount : d.fieldCount = 0) :
    IsRefused d (.unmappableType s 0)
  | rawSize (hcount : d.fieldCount ≤ 3) (hscalar : d.scalar = none)
    (hsize : d.rawSize = 0 ∨ 255 < d.rawSize) : IsRefused d (.extraBytesSize d.rawSize)

/-- The items of a record are written one behind the other. -/
theorem forM_append_items (items : List Item) (out : Bytes) :
    (items.forM fun i ↦ (modify (· ++ i.encode .little) : EStateM Error Bytes Unit)) out =
      .ok () (out ++ Item.encodeAll .little items) := by
  induction items generalizing out with
  | nil =>
    rw [Item.encodeAll_nil, List.append_nil]
    rfl
  | cons i items ih =>
    rw [Stateful.forM_cons_of_ok (f := fun i : Item ↦ modify (· ++ i.encode .little))
      (Stateful.modify_apply _ out), ih, List.append_assoc, Item.encodeAll_cons]

/-- A record is appended as a whole, or nothing is. -/
theorem append_eq (d : Descriptor) (out : Bytes) :
    d.append out = match d.encode with
      | .ok record => .ok () (out ++ record)
      | .error e => .error e out := by
  rw [append, encode]
  cases d.typeCode with
  | error e => rfl
  | ok code =>
    simp only [bind, Except.bind]
    cases d.optionsByte code with
    | error e => rfl
    | ok options => exact forM_append_items _ out

/-- The record of a run of some bytes. -/
theorem encode_of_none {d : Descriptor} (hcount : d.fieldCount ≤ 3) (hscalar : d.scalar = none)
    (hone : 1 ≤ d.rawSize) (hmost : d.rawSize ≤ 255) :
    d.encode = .ok (Item.encodeAll .little (d.items 0 (.ofNat d.rawSize))) := by
  have hcode : d.typeCode = .ok 0 := by
    rw [typeCode, if_neg (Nat.not_lt.2 hcount), hscalar]
  have hrange : ¬(d.rawSize = 0 || 255 < d.rawSize) = true := by
    simp only [Bool.or_eq_true, decide_eq_true_eq]
    omega
  have hoptions : d.optionsByte 0 = .ok (.ofNat d.rawSize) := by
    rw [optionsByte, if_pos rfl, if_neg hrange]
  simp only [encode, hcode, hoptions, bind, Except.bind]
  rfl

/-- The record of a vector of numbers. -/
theorem encode_of_some {d : Descriptor} {s : Scalar} (hscalar : d.scalar = some s)
    (hone : 1 ≤ d.fieldCount) (hthree : d.fieldCount ≤ 3) :
    d.encode = .ok (Item.encodeAll .little
      (d.items (.ofNat (10 * (d.fieldCount - 1) + s.code)) 0)) := by
  have hsome : d.fieldCount ≠ 0 := by omega
  have hcode : d.typeCode = .ok (.ofNat (10 * (d.fieldCount - 1) + s.code)) := by
    simp only [typeCode, if_neg (Nat.not_lt.2 hthree), hscalar, if_neg hsome]
  have hoptions : d.optionsByte (.ofNat (10 * (d.fieldCount - 1) + s.code)) = .ok 0 :=
    if_neg (ofNat_code_ne_zero s hthree)
  simp only [encode, hcode, hoptions, bind, Except.bind]
  rfl

/-- Other entries have no record. -/
theorem exists_encode_eq_error {d : Descriptor} (h : ¬d.HasRecord) :
    ∃ e, d.encode = .error e ∧ d.IsRefused e := by
  rw [encode, typeCode]
  by_cases hcount : 3 < d.fieldCount
  · rw [if_pos hcount]
    exact ⟨_, rfl, .fieldCount hcount⟩
  · rw [if_neg hcount]
    cases hscalar : d.scalar with
    | none =>
      have hsize : d.rawSize = 0 ∨ 255 < d.rawSize := by
        simp only [HasRecord, hscalar, true_and, ne_eq, not_true, false_and, or_false] at h
        omega
      have hrange : (d.rawSize = 0 || 255 < d.rawSize) = true := by
        simpa only [Bool.or_eq_true, decide_eq_true_eq] using hsize
      refine ⟨_, ?_, .rawSize (Nat.not_lt.1 hcount) hscalar hsize⟩
      simp only [bind, Except.bind, optionsByte, if_pos hrange]
      rfl
    | some s =>
      have hnone : d.fieldCount = 0 := by
        simp only [HasRecord, hscalar, reduceCtorEq, false_and, ne_eq, not_false_iff, true_and,
          false_or] at h
        omega
      simp only [if_pos hnone]
      exact ⟨_, rfl, .type hscalar hnone⟩

/-- An entry is read back from its record. -/
theorem exists_encode_eq_ok {d : Descriptor} (h : d.HasRecord) : ∃ record entry,
    d.encode = .ok record ∧ record.length = recordSize ∧ decode record = .ok entry ∧
      d.IsRecorded entry := by
  obtain ⟨hcount, ⟨hscalar, hone, hmost⟩ | ⟨hscalar, hone⟩⟩ := h
  · have hread := (yields_items d _ 0 (.ofNat d.rawSize) rfl).decode []
    rw [List.append_nil] at hread
    have hbyte : (UInt8.ofNat d.rawSize).toNat = d.rawSize :=
      UInt8.toNat_ofNat_of_lt' (Nat.lt_succ_of_le hmost)
    refine ⟨_, _, encode_of_none hcount hscalar hone hmost, length_items _ _ _, hread, ?_⟩
    exact
      { scalar := hscalar.symm
        fieldCount := (if_pos hscalar).symm
        rawSize := hbyte.trans (if_pos hscalar).symm
        scale := rfl
        offset := rfl
        name := FixedText.isCut_iff.2 rfl
        description := FixedText.isCut_iff.2 rfl }
  · obtain ⟨s, hs⟩ := Option.ne_none_iff_exists'.1 hscalar
    have hread := (yields_items d _ _ 0 (withTypeCode_vector _ s hone hcount)).decode []
    rw [List.append_nil] at hread
    refine ⟨_, _, encode_of_some hs hone hcount, length_items _ _ _, hread, ?_⟩
    exact
      { scalar := hs.symm
        fieldCount := (if_neg hscalar).symm
        rawSize := (if_neg hscalar).symm
        scale := rfl
        offset := rfl
        name := FixedText.isCut_iff.2 rfl
        description := FixedText.isCut_iff.2 rfl }

/-- The record of an entry is appended exactly if type and sizes have a place in one. Its 192 bytes
stand behind the bytes that were there, and are read back as what a record holds of the entry. A
refusal says what has no place and leaves the bytes as they were. -/
theorem append_recorded (d : Descriptor) (out : Bytes) :
    ((∃ result, d.append out = .ok () result) ↔ d.HasRecord) ∧
    (∀ result, d.append out = .ok () result → ∃ record entry,
      result = out ++ record ∧ record.length = 192 ∧ decode record = .ok entry ∧
        d.IsRecorded entry) ∧
    ∀ e result, d.append out = .error e result → d.IsRefused e ∧ result = out := by
  rw [append_eq]
  -- Both checks come before the first write, and no write fails behind them.
  by_cases h : d.HasRecord
  · obtain ⟨record, entry, hencode, hlength, hdecode, hentry⟩ := exists_encode_eq_ok h
    rw [hencode]
    refine ⟨⟨fun _ ↦ h, fun _ ↦ ⟨_, rfl⟩⟩, ?_, ?_⟩
    · rintro _ ⟨⟩
      exact ⟨record, entry, rfl, hlength, hdecode, hentry⟩
    · rintro _ _ ⟨⟩
  · obtain ⟨e, hencode, hrefused⟩ := exists_encode_eq_error h
    rw [hencode]
    refine ⟨⟨?_, fun hrecord ↦ absurd hrecord h⟩, ?_, ?_⟩
    · rintro ⟨_, ⟨⟩⟩
    · rintro _ ⟨⟩
    · rintro _ _ ⟨⟩
      exact ⟨hrefused, rfl⟩

/-- A name is cut in front of a character that needs more bytes than are left, a description at its
NUL. -/
example : let d : Descriptor :=
    { declare "mean height above the ground, mètre" (some .single) "left\x00out" with
      fieldCount := 2 }
    (d.encode >>= decode) =
      .ok { d with name := "mean height above the ground, m", description := "left" } := by
  decide +kernel

end LasFile.Descriptor
