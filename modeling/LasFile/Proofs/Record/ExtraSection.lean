import LasFile.Proofs.Number.Narrowing
import LasFile.Proofs.Number.Nearest
import LasFile.Proofs.Record.Restore

/-!
# Extra dimensions without a transform

Extra dimensions that keep away from each other are written and read one by one. A number stored as
an integer is rounded and has to lie in the range of its type; everything else is taken. What is
read back is that integer, the double or single of the number, or the bytes cut or filled up with
zeros.
-/

namespace LasFile

open Outcome

/-! ## Values and what is kept of them -/

/-- The integer that a value is rounded to: its own, or the nearest one of a finite number. -/
def Value.RoundsTo : Value → ℤ → Prop
  | signed v, n => v.toInt = n
  | unsigned v, n => v.toNat = n
  | float v, n => v.isFinite = true ∧ IsNearest v.toRat n
  | bytes _, _ => False

theorem Value.nearestInt?_eq_some {v : Value} {n : ℤ} : v.nearestInt? = some n ↔ v.RoundsTo n := by
  cases v with
  | signed v => exact Option.some_inj
  | unsigned v => exact Option.some_inj
  | float v => exact Double.nearestInt?_eq_some
  | bytes v => exact ⟨nofun, False.elim⟩

/-- The bytes of a value, none if it is a number. -/
def Value.content : Value → Bytes
  | bytes bs => bs
  | _ => []

/-- Whether the integer that a value is rounded to is in the range of a scalar. Numbers with a
fraction have no range. -/
def Scalar.Admits : Scalar → Value → Prop
  | signed w, v => ∃ n, v.RoundsTo n ∧ -2 ^ (w.bits - 1) ≤ n ∧ n < 2 ^ (w.bits - 1)
  | unsigned w, v => ∃ n, v.RoundsTo n ∧ 0 ≤ n ∧ n < 2 ^ w.bits
  | single, _ => True
  | double, _ => True

/-- Whether something is what a scalar keeps of a value. -/
def Scalar.Keeps : Scalar → Value → Value → Prop
  | signed _, v, kept => ∃ n : Int64, v.RoundsTo n.toInt ∧ kept = .signed n
  | unsigned _, v, kept => ∃ n : UInt64, v.RoundsTo n.toNat ∧ kept = .unsigned n
  | single, v, kept => kept = .float v.toDouble.toSingle.toDouble
  | double, v, kept => kept = .float v.toDouble

/-- Whether a value can be stored. -/
def Storage.Admits : Storage → Value → Prop
  | raw _, _ => True
  | scalar s, v => s.Admits v

/-- Whether something is what is read back of a value that was stored. -/
def Storage.Keeps : Storage → Value → Value → Prop
  | raw size, v, kept => kept = .bytes (v.content.padded size.toNat)
  | scalar s, v, kept => s.Keeps v kept

/-- What is read back where a point carries nothing. -/
def Storage.zero : Storage → Value
  | raw size => .bytes (List.replicate size.toNat 0)
  | scalar (.signed _) => .signed 0
  | scalar (.unsigned _) => .unsigned 0
  | scalar .single => .float .zero
  | scalar .double => .float .zero

/-- What single precision keeps of a finite number is the single nearest to it, of the same sign. -/
theorem Scalar.keeps_single_iff {v kept : Value} (h : v.toDouble.isFinite = true) :
    single.Keeps v kept ↔ ∃ s : Single, s.isNegative = v.toDouble.isNegative ∧
      Precision.binary32.IsNearest |v.toDouble.toRat| s.magnitude ∧ kept = .float s.toDouble := by
  constructor
  · intro hkept
    obtain ⟨hsign, hnearest⟩ := (Double.toSingle_eq_iff h).1 rfl
    exact ⟨_, hsign, hnearest, hkept⟩
  · rintro ⟨s, hsign, hnearest, rfl⟩
    rw [Keeps, (Double.toSingle_eq_iff h).2 ⟨hsign, hnearest⟩]

theorem Value.RoundsTo.unique {v : Value} {n m : ℤ} (hn : v.RoundsTo n) (hm : v.RoundsTo m) :
    n = m :=
  Option.some.inj ((nearestInt?_eq_some.2 hn).symm.trans (nearestInt?_eq_some.2 hm))

/-- A storage keeps one thing of a value. -/
theorem Storage.Keeps.unique {s : Storage} {v kept kept' : Value} (h : s.Keeps v kept)
    (h' : s.Keeps v kept') : kept = kept' := by
  match s with
  | .scalar (.signed w) =>
    obtain ⟨n, hn, rfl⟩ := h
    obtain ⟨m, hm, rfl⟩ := h'
    rw [Int64.toInt_inj.1 (hn.unique hm)]
  | .scalar (.unsigned w) =>
    obtain ⟨n, hn, rfl⟩ := h
    obtain ⟨m, hm, rfl⟩ := h'
    rw [UInt64.toNat_inj.1 (Int.ofNat_inj.1 (hn.unique hm))]
  | .raw _ => exact Eq.trans h (Eq.symm h')
  | .scalar .single => exact Eq.trans h (Eq.symm h')
  | .scalar .double => exact Eq.trans h (Eq.symm h')

theorem Storage.keeps_zero (s : Storage) : s.Keeps (.unsigned 0) s.zero := by
  match s with
  | .raw size => simp [Keeps, zero, Value.content, Bytes.padded]
  | .scalar (.signed w) => exact ⟨0, rfl, rfl⟩
  | .scalar (.unsigned w) => exact ⟨0, rfl, rfl⟩
  | .scalar .single =>
    have hsingle : (Value.unsigned 0).toDouble.toSingle.toDouble = .zero := by decide +kernel
    exact congrArg Value.float hsingle.symm
  | .scalar .double =>
    have hdouble : (Value.unsigned 0).toDouble = .zero := by decide
    exact congrArg Value.float hdouble.symm

/-! ## Scalars -/

namespace Value

variable {v : Value} {dimension : String} {type : Scalar} {part : Bytes}

theorem capacity_eq_two_pow (w : Width) : (ByteOrder.capacity w.bytes : ℤ) = 2 ^ w.bits ∧
    (ByteOrder.capacity w.bytes / 2 : ℤ) = 2 ^ (w.bits - 1) := by
  cases w <;> decide

theorem exists_whole_eq_ok (v : Value) (dimension : String) (w : Width) :
    (∃ n, v.whole dimension w = .ok n) ↔ (Scalar.signed w).Admits v := by
  simp only [whole_eq_ok, nearestInt?_eq_some, Scalar.Admits, (capacity_eq_two_pow w).2,
    Int.le_sub_one_iff]

theorem exists_natural_eq_ok (v : Value) (dimension : String) (w : Width) :
    (∃ n, v.natural dimension w = .ok n) ↔ (Scalar.unsigned w).Admits v := by
  simp only [natural_eq_ok, nearestInt?_eq_some, Scalar.Admits, ← (capacity_eq_two_pow w).1]
  constructor
  · rintro ⟨n, hn, hfits⟩
    exact ⟨n, hn, by omega, by omega⟩
  · rintro ⟨n, hn, hpos, hfits⟩
    lift n to ℕ using hpos
    exact ⟨n, hn, by omega⟩

/-- A scalar takes exactly the values that are in its range. -/
theorem exists_encode_iff : (∃ part, v.encode type dimension = .ok part) ↔ type.Admits v := by
  cases type with
  | signed w =>
    rw [← exists_whole_eq_ok v dimension w]
    simp [encode, map_eq_ok]
  | unsigned w =>
    rw [← exists_natural_eq_ok v dimension w]
    simp [encode, map_eq_ok]
  | single => simp [encode, Scalar.Admits]
  | double => simp [encode, Scalar.Admits]

instance (type : Scalar) (v : Value) : Decidable (type.Admits v) :=
  decidable_of_iff ((v.encode type "").toOption.isSome = true)
    (isSome_toOption.trans exists_encode_iff)

instance (s : Storage) (v : Value) : Decidable (s.Admits v) :=
  match s with
  | .raw _ => inferInstanceAs (Decidable True)
  | .scalar type => inferInstanceAs (Decidable (type.Admits v))

/-- What is read from the bytes of a value. -/
theorem keeps_of_encode (h : v.encode type dimension = .ok part) :
    type.Keeps v (decode type part) := by
  cases type with
  | signed w =>
    obtain ⟨n, hn, rfl⟩ := map_eq_ok.1 h
    obtain ⟨hrounds, hlow, hhigh⟩ := whole_eq_ok.1 hn
    have hhalf : (ByteOrder.capacity w.bytes / 2 : ℤ) ≤ 2 ^ 63 := by cases w <;> decide
    have hvalue : (Int64.ofInt n).toInt = n := Int64.toInt_ofInt_of_le (by omega) (by omega)
    refine ⟨.ofInt n, ?_, decode_signedBytes hlow hhigh⟩
    rwa [hvalue, ← nearestInt?_eq_some]
  | unsigned w =>
    obtain ⟨n, hn, rfl⟩ := map_eq_ok.1 h
    obtain ⟨hrounds, hfits⟩ := natural_eq_ok.1 hn
    have hwide : ByteOrder.capacity w.bytes ≤ UInt64.size := by cases w <;> decide
    refine ⟨.ofNat n, ?_, decode_unsignedBytes hfits⟩
    rwa [UInt64.toNat_ofNat_of_lt' (hfits.trans_le hwide), ← nearestInt?_eq_some]
  | single =>
    cases h
    exact decode_singleBytes _
  | double =>
    cases h
    exact decode_doubleBytes _

end Value

/-! ## Dimensions -/

namespace ExtraDim

variable {dim : ExtraDim} {p : Point}

theorem encode_raw {size : UInt8} (hstorage : dim.storage = .raw size) (p : Point) :
    dim.encode p = .ok ((p.valueOrZero dim.id).content.padded size.toNat) := by
  simp only [encode, hstorage, Point.valueOrZero]
  split
  next bs hbs => rw [hbs]; rfl
  next hother =>
    cases hvalue : p.get? dim.id with
    | none => simp [Value.content, Bytes.padded]
    | some v =>
      cases v with
      | bytes bs => exact absurd hvalue (hother bs)
      | _ => simp [Value.content, Bytes.padded]

variable (h : dim.transform = .identity)

include h

/-- Whether a point's value is taken does not depend on its other values. -/
theorem exists_encode_iff :
    (∃ part, dim.encode p = .ok part) ↔ dim.storage.Admits (p.valueOrZero dim.id) := by
  cases hstorage : dim.storage with
  | raw size => simp [encode_raw hstorage, Storage.Admits]
  | scalar s =>
    rw [encode_of_identity h hstorage]
    exact Value.exists_encode_iff

theorem raises_encode :
    Raises (dim.encode p) fun e ↦ e = .outOfRange dim.name (p.number dim.id) := by
  cases hstorage : dim.storage with
  | raw size =>
    rw [encode_raw hstorage]
    exact raises_ok _
  | scalar s =>
    rw [encode_of_identity h hstorage, Point.number_eq_toDouble]
    exact Value.raises_encode _ _ _

theorem keeps_of_encode {part : Bytes} (hencode : dim.encode p = .ok part) :
    dim.storage.Keeps (p.valueOrZero dim.id) (dim.decode part) := by
  cases hstorage : dim.storage with
  | raw size =>
    rw [encode_raw hstorage, Except.ok.injEq] at hencode
    simp only [decode, hstorage, Storage.Keeps, hencode]
  | scalar s =>
    rw [encode_of_identity h hstorage] at hencode
    rw [decode_of_identity h hstorage]
    exact Value.keeps_of_encode hencode

end ExtraDim

/-! ## The section -/

namespace Section

variable {dims before after : List ExtraDim} {dim : ExtraDim} {p : Point} {buffer packed : Bytes}

/-- The bytes of an extra dimension in a section that was written. -/
theorem slice_of_pack_extraDims (hapart : dims.Pairwise fun a b ↦ a.range.Apart b.range)
    (hroom : (extraDims dims).limit ≤ buffer.length)
    (hpack : (extraDims dims).pack p buffer = .ok () packed) (hdim : dim ∈ dims) :
    dim.encode p = .ok (packed.slice dim.start dim.size) := by
  obtain ⟨before, after, rfl⟩ := List.append_of_mem hdim
  rw [pack_of_room hroom] at hpack
  have hfits : ∀ slot ∈ (extraDims (before ++ dim :: after)).slots,
      slot.Exact ∧ slot.start + slot.width ≤ buffer.length := fun slot hslot ↦
    ⟨exact_of_mem_slots hslot, (end_le_limit hslot).trans hroom⟩
  have hslots : (extraDims (before ++ dim :: after)).slots =
      before.map ExtraDim.slot ++ dim.slot :: after.map ExtraDim.slot := by
    rw [slots, List.map_append, List.map_cons]
  rw [hslots] at hpack hfits
  have hlater : ∀ later ∈ after.map ExtraDim.slot, dim.slot.range.Apart later.range := by
    intro later hlater
    obtain ⟨behind, hmem, rfl⟩ := List.mem_map.1 hlater
    exact (List.pairwise_cons.1 (List.pairwise_append.1 hapart).2.1).1 behind hmem
  cases hparts : (before.map ExtraDim.slot ++ dim.slot :: after.map ExtraDim.slot).mapM
      (·.part p) with
  | error e =>
    obtain ⟨rest, hrest⟩ := Slot.forM_pack_error hparts buffer
    cases hrest.symm.trans hpack
  | ok parts =>
    cases (Slot.forM_pack_ok hparts buffer).symm.trans hpack
    exact Slot.slice_patch_parts hparts hfits hlater

/-- Reading the section sets every dimension to what its bytes say. -/
theorem load_extraDims (hdistinct : (dims.map ExtraDim.id).Nodup) {record : Bytes}
    (hroom : (extraDims dims).limit ≤ record.length) (q : Point) :
    ∃ loaded, (extraDims dims).load record q = .ok () loaded ∧ ∀ dim ∈ dims,
      loaded.get? dim.id = some (dim.decode (record.slice dim.start dim.size)) := by
  let fields := dims.map fun dim ↦ (dim.id, dim.decode (record.slice dim.start dim.size))
  have hloaded : (extraDims dims).slots.foldl (fun q slot ↦ slot.load record q) q =
      q.setAll fields := by
    simp only [slots, Point.setAll, fields, List.foldl_map]
    rfl
  have hnames : (fields.map Prod.fst).Nodup := by
    simpa only [fields, List.map_map, Function.comp_def] using hdistinct
  refine ⟨q.setAll fields, ?_, fun dim hdim ↦ ?_⟩
  · rw [load_of_room hroom, hloaded]
  · exact Point.get?_setAll_of_mem hnames (List.mem_map_of_mem hdim)

/-- A section takes a point exactly if all of its dimensions do. -/
theorem exists_pack_extraDims (hroom : (extraDims dims).limit ≤ buffer.length) :
    (∃ packed, (extraDims dims).pack p buffer = .ok () packed) ↔
      ∀ dim ∈ dims, ∃ part, dim.encode p = .ok part := by
  have hpart (dim : ExtraDim) : (∃ part, dim.slot.part p = .ok part) ↔
      ∃ part, dim.encode p = .ok part := by
    simp only [Slot.part, map_eq_ok]
    constructor
    · rintro ⟨_, part, h, -⟩
      exact ⟨part, h⟩
    · rintro ⟨part, h⟩
      exact ⟨_, part, h, rfl⟩
  rw [pack_of_room hroom]
  cases hparts : (extraDims dims).slots.mapM (·.part p) with
  | ok parts =>
    have hall := exists_eq_ok_of_mapM_eq_ok hparts
    refine iff_of_true ⟨_, Slot.forM_pack_ok hparts buffer⟩ fun dim hdim ↦ (hpart dim).1 ?_
    exact hall dim.slot (List.mem_map_of_mem hdim)
  | error e =>
    obtain ⟨rest, hrest⟩ := Slot.forM_pack_error hparts buffer
    obtain ⟨slot, hslot, herror⟩ := exists_mem_of_mapM_eq_error hparts
    obtain ⟨dim, hdim, rfl⟩ := List.mem_map.1 hslot
    refine iff_of_false (by simp [hrest]) fun hall ↦ ?_
    obtain ⟨part, hok⟩ := (hpart dim).2 (hall dim hdim)
    cases hok.symm.trans herror

/-- A section fails at the first dimension that does not take a point. -/
theorem pack_extraDims_eq_error (hroom : (extraDims (before ++ dim :: after)).limit ≤ buffer.length)
    (hbefore : ∀ earlier ∈ before, ∃ part, earlier.encode p = .ok part) {e : Error}
    (hdim : dim.encode p = .error e) :
    ∃ rest, (extraDims (before ++ dim :: after)).pack p buffer = .error e rest := by
  rw [pack_of_room hroom]
  apply Slot.forM_pack_error
  rw [slots, List.map_append, List.map_cons]
  apply mapM_append_cons_eq_error
  · intro slot hslot
    obtain ⟨earlier, hmem, rfl⟩ := List.mem_map.1 hslot
    obtain ⟨part, hpart⟩ := hbefore earlier hmem
    exact ⟨_, map_eq_ok.2 ⟨part, hpart, rfl⟩⟩
  · show (_ <$> dim.encode p) = _
    rw [hdim]
    rfl

/-- Extra dimensions without a transform, of different names and apart from each other. A point is
written exactly if every one of them admits its value, and otherwise the first one that does not is
named. What is read back is what each of them keeps, and zero where the point carries nothing. -/
theorem load_of_pack_extraDims (hplain : ∀ dim ∈ dims, dim.transform = .identity)
    (hdistinct : (dims.map ExtraDim.id).Nodup)
    (hapart : dims.Pairwise fun a b ↦ a.range.Apart b.range)
    (hroom : (extraDims dims).limit ≤ buffer.length) (p : Point) :
    ((∃ packed, (extraDims dims).pack p buffer = .ok () packed) ↔
      ∀ dim ∈ dims, dim.storage.Admits (p.valueOrZero dim.id)) ∧
    (∀ before dim after, dims = before ++ dim :: after →
      (∀ earlier ∈ before, earlier.storage.Admits (p.valueOrZero earlier.id)) →
      ¬dim.storage.Admits (p.valueOrZero dim.id) →
      ∃ rest, (extraDims dims).pack p buffer =
        .error (.outOfRange dim.name (p.number dim.id)) rest) ∧
    ∀ packed, (extraDims dims).pack p buffer = .ok () packed → ∀ q, ∃ loaded,
      (extraDims dims).load packed q = .ok () loaded ∧
      ∀ dim ∈ dims, ∃ kept, loaded.get? dim.id = some kept ∧
        dim.storage.Keeps (p.valueOrZero dim.id) kept ∧
        (p.get? dim.id = none → kept = dim.storage.zero) := by
  refine ⟨?_, ?_, fun packed hpack q ↦ ?_⟩
  · rw [exists_pack_extraDims hroom]
    exact forall₂_congr fun dim hdim ↦ ExtraDim.exists_encode_iff (hplain dim hdim)
  · rintro before dim after rfl hbefore hrefused
    have hdim := hplain dim (by simp)
    cases hencode : dim.encode p with
    | ok part => exact absurd ((ExtraDim.exists_encode_iff hdim).1 ⟨part, hencode⟩) hrefused
    | error e =>
      obtain rfl := ExtraDim.raises_encode hdim e hencode
      refine pack_extraDims_eq_error hroom (fun earlier hmem ↦ ?_) hencode
      exact (ExtraDim.exists_encode_iff (hplain earlier (by simp [hmem]))).2 (hbefore earlier hmem)
  · have hlength : packed.length = buffer.length :=
      (extraDims dims).keepsLength_pack p _ _ _ (Nat.zero_le _) hpack
    obtain ⟨loaded, hload, hfields⟩ := load_extraDims hdistinct (hroom.trans_eq hlength.symm) q
    refine ⟨loaded, hload, fun dim hdim ↦ ⟨_, hfields dim hdim, ?_⟩⟩
    have hencode := slice_of_pack_extraDims hapart hroom hpack hdim
    have hkeeps := ExtraDim.keeps_of_encode (hplain dim hdim) hencode
    refine ⟨hkeeps, fun habsent ↦ ?_⟩
    rw [Point.valueOrZero, habsent] at hkeeps
    exact hkeeps.unique dim.storage.keeps_zero

/-- The bounds of eight bytes, a number just below zero, bytes to be cut and an absent number. The
double `2 ^ 64` has no place among numbers of eight bytes without a sign. -/
theorem load_of_pack_extraDims_bounds :
    let dims : List ExtraDim := [.plain "low" (.scalar (.signed .eight)) 0,
      .plain "high" (.scalar (.unsigned .eight)) 8, .plain "small" (.scalar (.unsigned .one)) 16,
      .plain "run" (.raw 3) 17, .plain "absent" (.scalar .double) 20]
    let p := Point.empty.setAll [(.user "low", .signed Int64.minValue),
      (.user "high", .float ⟨0x43e0000000000000⟩), (.user "small", .float ⟨0xbfd999999999999a⟩),
      (.user "run", .bytes [1, 2, 3, 4])]
    (∃ packed loaded, (extraDims dims).pack p (List.replicate 28 255) = .ok () packed ∧
      (extraDims dims).load packed .empty = .ok () loaded ∧
      loaded.get? (.user "low") = some (.signed Int64.minValue) ∧
      loaded.get? (.user "high") = some (.unsigned 0x8000000000000000) ∧
      loaded.get? (.user "small") = some (.unsigned 0) ∧
      loaded.get? (.user "run") = some (.bytes [1, 2, 3]) ∧
      loaded.get? (.user "absent") = some (.float .zero)) ∧
    ∃ rest, (extraDims dims).pack (p.set (.user "high") (.float ⟨0x43f0000000000000⟩))
      (List.replicate 28 255) = .error (.outOfRange "high" ⟨0x43f0000000000000⟩) rest := by
  intro dims p
  have hplain : ∀ dim ∈ dims, dim.transform = .identity := by decide
  have hdistinct : (dims.map ExtraDim.id).Nodup := by decide
  have hapart : dims.Pairwise fun a b ↦ a.range.Apart b.range := by decide
  have hroom : (extraDims dims).limit ≤ (List.replicate 28 255 : Bytes).length := by decide
  obtain ⟨haccepted, -, hloaded⟩ := load_of_pack_extraDims hplain hdistinct hapart hroom p
  obtain ⟨-, hrefused, -⟩ := load_of_pack_extraDims hplain hdistinct hapart hroom
    (p.set (.user "high") (.float ⟨0x43f0000000000000⟩))
  constructor
  · obtain ⟨packed, hpack⟩ := haccepted.2 (by decide +kernel)
    obtain ⟨loaded, hload, hfields⟩ := hloaded packed hpack .empty
    have hread (dim : ExtraDim) (hdim : dim ∈ dims) (kept : Value)
        (hkeeps : dim.storage.Keeps (p.valueOrZero dim.id) kept) :
        loaded.get? dim.id = some kept := by
      obtain ⟨found, hfound, hkept, -⟩ := hfields dim hdim
      rw [hfound, hkept.unique hkeeps]
    have hlow := hread (.plain "low" (.scalar (.signed .eight)) 0) (by decide)
      (.signed Int64.minValue) ⟨_, rfl, rfl⟩
    have hhigh := hread (.plain "high" (.scalar (.unsigned .eight)) 8) (by decide)
      (.unsigned 0x8000000000000000)
      ⟨_, Value.nearestInt?_eq_some.1 (by decide +kernel), rfl⟩
    have hsmall := hread (.plain "small" (.scalar (.unsigned .one)) 16) (by decide)
      (.unsigned 0) ⟨_, Value.nearestInt?_eq_some.1 (by decide +kernel), rfl⟩
    have hrun := hread (.plain "run" (.raw 3) 17) (by decide) (.bytes [1, 2, 3]) rfl
    have habsent := hread (.plain "absent" (.scalar .double) 20) (by decide) (.float .zero)
      (Storage.keeps_zero _)
    exact ⟨packed, loaded, hpack, hload, hlow, hhigh, hsmall, hrun, habsent⟩
  · exact hrefused [.plain "low" (.scalar (.signed .eight)) 0]
      (.plain "high" (.scalar (.unsigned .eight)) 8) _ rfl (by decide +kernel) (by decide +kernel)

end Section

end LasFile
