import LasFile.Proofs.Byte.Complement
import LasFile.Proofs.Number.Conversion
import LasFile.Proofs.Outcome
import LasFile.Record.Core

/-!
# Values in their bytes

A value is stored as an integer exactly if its nearest integer lies in the range of the width, and
the value read from some bytes is stored in the same bytes again. The one exception is a NaN in
single precision, which comes back quiet.
-/

namespace LasFile

open Outcome

namespace Value

/-! ## Range checks -/

variable {v : Value} {dimension : String} {low high n : Int} {w : Width}

theorem integer_eq_ok : v.integer dimension low high = .ok n ↔
    v.nearestInt? = some n ∧ low ≤ n ∧ n ≤ high := by
  unfold integer
  split
  next m hm =>
    rw [hm, Option.some.injEq]
    split
    next hrange =>
      rw [Except.ok.injEq]
      exact ⟨fun h ↦ h ▸ ⟨rfl, hrange⟩, fun h ↦ h.1⟩
    next hrange =>
      simp only [reduceCtorEq, false_iff]
      rintro ⟨rfl, h⟩
      exact hrange h
  next hnone => simp [hnone]

theorem whole_eq_ok : v.whole dimension w = .ok n ↔ v.nearestInt? = some n ∧
    -(ByteOrder.capacity w.bytes / 2 : Int) ≤ n ∧
      n ≤ (ByteOrder.capacity w.bytes / 2 : Int) - 1 := integer_eq_ok

theorem natural_eq_ok {n : Nat} : v.natural dimension w = .ok n ↔
    v.nearestInt? = some (n : Int) ∧ n < ByteOrder.capacity w.bytes := by
  simp only [natural, map_eq_ok, integer_eq_ok]
  constructor
  · rintro ⟨m, ⟨hm, hlow, hhigh⟩, rfl⟩
    rw [Int.toNat_of_nonneg hlow]
    exact ⟨hm, by omega⟩
  · rintro ⟨hn, hlt⟩
    exact ⟨n, ⟨hn, by omega, by omega⟩, rfl⟩

/-- What bytes hold fits the width again. -/
theorem natural_unsigned (dimension : String) (w : Width) {n : Nat}
    (h : n < ByteOrder.capacity w.bytes) :
    (Value.unsigned (.ofNat n)).natural dimension w = .ok n := by
  have hwide : n < UInt64.size := by
    apply Nat.lt_of_lt_of_le h
    cases w <;> decide
  rw [natural_eq_ok, nearestInt?, UInt64.toNat_ofNat_of_lt' hwide]
  exact ⟨rfl, h⟩

/-! ## Refusals -/

/-- A range check that fails names the dimension and the value. -/
theorem raises_integer (v : Value) (dimension : String) (low high : Int) :
    Raises (v.integer dimension low high) fun e ↦ e = .outOfRange dimension v.toDouble := by
  unfold integer
  split
  · split
    · exact raises_ok _
    · exact fun e he ↦ (Except.error.inj he).symm
  · exact fun e he ↦ (Except.error.inj he).symm

theorem raises_natural (v : Value) (dimension : String) (w : Width) :
    Raises (v.natural dimension w) fun e ↦ e = .outOfRange dimension v.toDouble :=
  (raises_integer v dimension _ _).map _

theorem raises_whole (v : Value) (dimension : String) (w : Width) :
    Raises (v.whole dimension w) fun e ↦ e = .outOfRange dimension v.toDouble :=
  raises_integer v dimension _ _

theorem raises_encode (v : Value) (type : Scalar) (dimension : String) :
    Raises (v.encode type dimension) fun e ↦ e = .outOfRange dimension v.toDouble := by
  cases type with
  | signed w => exact (raises_whole v dimension w).map _
  | unsigned w => exact (raises_natural v dimension w).map _
  | single => exact raises_ok _
  | double => exact raises_ok _

/-- The failure of a range check, which names a dimension and a value. -/
def IsRefusal (e : Error) : Prop := ∃ dimension value, e = .outOfRange dimension value

/-- A step that fails in one range check only fails with a refusal. -/
theorem raises_isRefusal {α : Type} {x : Except Error α} {value : Double}
    (h : Raises x fun e ↦ e = .outOfRange dimension value) : Raises x IsRefusal :=
  h.imp fun _ he ↦ ⟨dimension, value, he⟩

/-! ## Bytes of values -/

variable {bs : Bytes}

theorem unsignedBytes_toNat (h : bs.length = w.bytes) :
    unsignedBytes w (ByteOrder.little.toNat bs) = bs := by
  rw [unsignedBytes, ← h, ByteOrder.bytes_toNat]

theorem signedBytes_ofComplement (h : bs.length = w.bytes) :
    signedBytes w (ByteOrder.ofComplement w.bytes (ByteOrder.little.toNat bs)) = bs := by
  have hlt : ByteOrder.little.toNat bs < ByteOrder.capacity w.bytes :=
    h ▸ ByteOrder.toNat_lt .little bs
  rw [signedBytes, ByteOrder.complement_ofComplement hlt, ← h, ByteOrder.bytes_toNat]

theorem doubleBytes_toNat (h : bs.length = 8) :
    doubleBytes ⟨.ofNat (ByteOrder.little.toNat bs)⟩ = bs := by
  have hlt : ByteOrder.little.toNat bs < UInt64.size := by
    have := ByteOrder.toNat_lt .little bs
    rwa [h] at this
  rw [doubleBytes, UInt64.toNat_ofNat_of_lt' hlt, ← h, ByteOrder.bytes_toNat]

theorem singleBytes_toNat (h : bs.length = 4) :
    singleBytes ⟨.ofNat (ByteOrder.little.toNat bs)⟩ = bs := by
  have hlt : ByteOrder.little.toNat bs < UInt32.size := by
    have := ByteOrder.toNat_lt .little bs
    rwa [h] at this
  rw [singleBytes, UInt32.toNat_ofNat_of_lt' hlt, ← h, ByteOrder.bytes_toNat]

/-- The value read from some bytes is stored in the same bytes. -/
theorem encode_decode {type : Scalar} (hlength : bs.length = type.size)
    (hnumber : type = .single →
      (Single.mk (.ofNat (ByteOrder.little.toNat bs))).isNaN = false)
    (dimension : String) : (decode type bs).encode type dimension = .ok bs := by
  cases type with
  | signed w =>
    obtain ⟨hlow, hhigh⟩ := ByteOrder.ofComplement_bounds w (ByteOrder.little.toNat bs)
    have hhalf : (ByteOrder.capacity w.bytes / 2 : Int) ≤ 9223372036854775808 := by
      cases w <;> decide
    have hvalue : (Int64.ofInt (ByteOrder.ofComplement w.bytes
        (ByteOrder.little.toNat bs))).toInt =
        ByteOrder.ofComplement w.bytes (ByteOrder.little.toNat bs) := by
      apply Int64.toInt_ofInt_of_le <;> simp <;> omega
    have hwhole : (decode (.signed w) bs).whole dimension w =
        .ok (ByteOrder.ofComplement w.bytes (ByteOrder.little.toNat bs)) :=
      whole_eq_ok.2 ⟨congrArg some hvalue, hlow, hhigh⟩
    rw [encode, hwhole]
    exact congrArg Except.ok (signedBytes_ofComplement hlength)
  | unsigned w =>
    have hlt : ByteOrder.little.toNat bs < ByteOrder.capacity w.bytes := by
      have := ByteOrder.toNat_lt .little bs
      rwa [hlength] at this
    rw [encode, decode, natural_unsigned dimension w hlt]
    exact congrArg Except.ok (unsignedBytes_toNat hlength)
  | single =>
    rw [encode, decode, toDouble, Single.toSingle_toDouble (hnumber rfl)]
    exact congrArg Except.ok (singleBytes_toNat hlength)
  | double => exact congrArg Except.ok (doubleBytes_toNat hlength)

/-! ## Values read from their bytes -/

theorem toNat_signedBytes (w : Width) (n : Int) :
    ByteOrder.little.toNat (signedBytes w n) = ByteOrder.complement w.bytes n := by
  rw [signedBytes, ByteOrder.toNat_bytes, Nat.mod_eq_of_lt (ByteOrder.complement_lt w n)]

theorem decode_signedBytes (hlow : -(ByteOrder.capacity w.bytes / 2 : Int) ≤ n)
    (hhigh : n ≤ (ByteOrder.capacity w.bytes / 2 : Int) - 1) :
    decode (.signed w) (signedBytes w n) = .signed (.ofInt n) := by
  rw [decode, toNat_signedBytes]
  simp only [ByteOrder.ofComplement_complement w hlow hhigh]

theorem decode_unsignedBytes {n : Nat} (h : n < ByteOrder.capacity w.bytes) :
    decode (.unsigned w) (unsignedBytes w n) = .unsigned (.ofNat n) := by
  rw [decode, unsignedBytes, ByteOrder.toNat_bytes, Nat.mod_eq_of_lt h]

theorem decode_singleBytes (s : Single) : decode .single (singleBytes s) = .float s.toDouble := by
  have hlt : s.bits.toNat < ByteOrder.capacity 4 := s.bits.toNat_lt
  rw [decode, singleBytes, ByteOrder.toNat_bytes, Nat.mod_eq_of_lt hlt, UInt32.ofNat_toNat]

theorem decode_doubleBytes (d : Double) : decode .double (doubleBytes d) = .float d := by
  have hlt : d.bits.toNat < ByteOrder.capacity 8 := d.bits.toNat_lt
  rw [decode, doubleBytes, ByteOrder.toNat_bytes, Nat.mod_eq_of_lt hlt, UInt64.ofNat_toNat]

/-! ## Values of full width -/

/-- Eight bytes hold every signed number. -/
theorem exists_encode_signed (n : Int64) (dimension : String) :
    ∃ part, (signed n).encode (.signed .eight) dimension = .ok part ∧
      decode (.signed .eight) part = signed n := by
  have hhalf : (ByteOrder.capacity Width.eight.bytes / 2 : Int) = 2 ^ 63 := by decide
  have hlow : -(ByteOrder.capacity Width.eight.bytes / 2 : Int) ≤ n.toInt := by
    rw [hhalf]
    exact n.le_toInt
  have hhigh : n.toInt ≤ (ByteOrder.capacity Width.eight.bytes / 2 : Int) - 1 := by
    have := n.toInt_lt
    omega
  have hwhole : (signed n).whole dimension .eight = .ok n.toInt :=
    whole_eq_ok.2 ⟨rfl, hlow, hhigh⟩
  refine ⟨signedBytes .eight n.toInt, ?_, ?_⟩
  · rw [encode, hwhole]
    rfl
  · rw [decode_signedBytes hlow hhigh, Int64.ofInt_toInt]

/-- Eight bytes hold every number without sign. -/
theorem exists_encode_unsigned (n : UInt64) (dimension : String) :
    ∃ part, (unsigned n).encode (.unsigned .eight) dimension = .ok part ∧
      decode (.unsigned .eight) part = unsigned n := by
  have hlt : n.toNat < ByteOrder.capacity Width.eight.bytes := n.toNat_lt
  have hnatural : (unsigned n).natural dimension .eight = .ok n.toNat :=
    natural_eq_ok.2 ⟨rfl, hlt⟩
  refine ⟨unsignedBytes .eight n.toNat, ?_, ?_⟩
  · rw [encode, hnatural]
    rfl
  · rw [decode_unsignedBytes hlt, UInt64.ofNat_toNat]

/-- Eight bytes hold every double, whatever its bits are. -/
theorem exists_encode_float (x : Double) (dimension : String) :
    ∃ part, (float x).encode .double dimension = .ok part ∧ decode .double part = float x :=
  ⟨doubleBytes x, rfl, decode_doubleBytes x⟩

/-! ## Small whole numbers -/

/-- The value is the number `n`, stored as whatever kind. -/
def IsWhole (n : Nat) (v : Value) : Prop :=
  v = .unsigned (.ofNat n) ∨ v = .signed (.ofNat n) ∨ v = .float (.ofInt n)

instance (n : Nat) (v : Value) : Decidable (v.IsWhole n) :=
  inferInstanceAs (Decidable (_ ∨ _ ∨ _))

theorem clamp_ofInt : ∀ n < 16, (Double.ofInt (n : Nat)).clamp (UInt64.size - 1) = n := by
  decide +kernel

theorem toSingle_ofInt :
    ∀ n < 16, (Double.ofInt (n : Nat)).toSingle.toDouble = .ofInt n := by
  decide +kernel

namespace IsWhole

variable {n : Nat}

/-- A small whole number of any kind is that number. -/
theorem toDouble_eq (h : v.IsWhole n) (hn : n < 16) : v.toDouble = .ofInt n := by
  obtain rfl | rfl | rfl := h
  · rw [toDouble, UInt64.toNat_ofNat_of_lt' (hn.trans (by decide))]
  · rw [toDouble, Int64.toInt_ofNat_of_lt (by omega)]
  · rfl

theorem nearestInt?_eq (h : v.IsWhole n) (hn : n < 16) : v.nearestInt? = some (n : Int) := by
  obtain rfl | rfl | rfl := h
  · rw [nearestInt?, UInt64.toNat_ofNat_of_lt' (hn.trans (by decide))]
  · rw [nearestInt?, Int64.toInt_ofNat_of_lt (by omega)]
  · have hexact : (n : Int).natAbs < 2 * Precision.binary64.hiddenBit := hn.trans (by decide)
    exact Double.nearestInt?_ofInt hexact

/-- A value is one number. -/
theorem iff_eq {m : Nat} (h : v.IsWhole n) (hn : n < 16) (hm : m < 16) : v.IsWhole m ↔ n = m := by
  constructor
  · intro hother
    have hsame := (h.nearestInt?_eq hn).symm.trans (hother.nearestInt?_eq hm)
    exact Int.ofNat_inj.1 (Option.some.inj hsame)
  · rintro rfl
    exact h

/-- A small whole number is stored as every scalar and read back. -/
theorem exists_encode (h : v.IsWhole n) (hn : n < 16) (type : Scalar) (dimension : String) :
    ∃ part, v.encode type dimension = .ok part ∧ (decode type part).IsWhole n := by
  have hnearest := h.nearestInt?_eq hn
  have hroom : ∀ w : Width, 256 ≤ ByteOrder.capacity w.bytes := by
    rintro (_ | _ | _ | _) <;> decide
  cases type with
  | signed w =>
    have hfits : -(ByteOrder.capacity w.bytes / 2 : Int) ≤ n ∧
        n ≤ (ByteOrder.capacity w.bytes / 2 : Int) - 1 := by
      have := hroom w
      omega
    refine ⟨signedBytes w n, ?_, .inr (.inl ?_)⟩
    · rw [encode, whole_eq_ok.2 ⟨hnearest, hfits⟩]
      rfl
    · rw [decode_signedBytes hfits.1 hfits.2]
      rfl
  | unsigned w =>
    have hfits : n < ByteOrder.capacity w.bytes := Nat.lt_of_lt_of_le (by omega) (hroom w)
    refine ⟨unsignedBytes w n, ?_, .inl (decode_unsignedBytes hfits)⟩
    rw [encode, natural_eq_ok.2 ⟨hnearest, hfits⟩]
    rfl
  | single =>
    refine ⟨singleBytes (Double.ofInt n).toSingle, ?_, .inr (.inr ?_)⟩
    · rw [encode, h.toDouble_eq hn]
    · rw [decode_singleBytes, toSingle_ofInt n hn]
  | double =>
    refine ⟨doubleBytes (.ofInt n), ?_, .inr (.inr (decode_doubleBytes _))⟩
    rw [encode, h.toDouble_eq hn]

end IsWhole

end Value

end LasFile
