/-!
# Whole numbers in bytes

A number of fixed width is written with its low byte first or last. `ByteOrder.bytes` and
`ByteOrder.toNat` are the only encoder and decoder of numbers in this library; every field of a
file is an instance of them. They are inverse to each other up to the width.
-/

namespace LasFile

/-- Which end of a number comes first. -/
inductive ByteOrder where
  | little
  | big
  deriving DecidableEq, Repr, Inhabited

namespace ByteOrder

/-- How many numbers `width` bytes can tell apart. -/
def capacity : Nat → Nat
  | 0 => 1
  | width + 1 => 256 * capacity width

/-- The low `width` bytes of a number, lowest first. -/
def lowFirst : Nat → Nat → List UInt8
  | 0, _ => []
  | width + 1, n => UInt8.ofNat n :: lowFirst width (n / 256)

/-- The number whose bytes, lowest first, are given. -/
def ofLowFirst : List UInt8 → Nat
  | [] => 0
  | b :: bs => b.toNat + 256 * ofLowFirst bs

/-- The low `width` bytes of a number. -/
def bytes (order : ByteOrder) (width n : Nat) : List UInt8 :=
  match order with
  | little => lowFirst width n
  | big => (lowFirst width n).reverse

/-- The number written by the bytes. -/
def toNat (order : ByteOrder) (bs : List UInt8) : Nat :=
  match order with
  | little => ofLowFirst bs
  | big => ofLowFirst bs.reverse

/-- An integer as the number that stands for it in two's complement. -/
def complement (width : Nat) (n : Int) : Nat := (n % capacity width).toNat

/-- The integer that a number stands for in two's complement. -/
def ofComplement (width : Nat) (n : Nat) : Int := Int.bmod n (capacity width)

/-! ## Laws -/

@[simp]
theorem length_lowFirst (width n : Nat) : (lowFirst width n).length = width := by
  induction width generalizing n with
  | zero => rfl
  | succ width ih => simp [lowFirst, ih]

@[simp]
theorem length_bytes (order : ByteOrder) (width n : Nat) :
    (order.bytes width n).length = width := by
  cases order <;> simp [bytes]

theorem ofLowFirst_lowFirst (width n : Nat) :
    ofLowFirst (lowFirst width n) = n % capacity width := by
  induction width generalizing n with
  | zero => simp [lowFirst, ofLowFirst, capacity, Nat.mod_one]
  | succ width ih =>
    rw [lowFirst, ofLowFirst, ih, capacity, Nat.mod_mul]
    simp

theorem toNat_bytes (order : ByteOrder) (width n : Nat) :
    order.toNat (order.bytes width n) = n % capacity width := by
  cases order <;> simp [bytes, toNat, ofLowFirst_lowFirst]

theorem lowFirst_ofLowFirst (bs : List UInt8) : lowFirst bs.length (ofLowFirst bs) = bs := by
  induction bs with
  | nil => rfl
  | cons b bs ih =>
    have h : (b.toNat + 256 * ofLowFirst bs) / 256 = ofLowFirst bs := by
      have := b.toNat_lt
      omega
    have hb : UInt8.ofNat (b.toNat + 256 * ofLowFirst bs) = b := by
      apply UInt8.toNat_inj.mp
      have := b.toNat_lt
      simp only [UInt8.toNat_ofNat']
      omega
    simp only [List.length_cons, lowFirst, ofLowFirst, h, hb, ih]

theorem bytes_toNat (order : ByteOrder) (bs : List UInt8) :
    order.bytes bs.length (order.toNat bs) = bs := by
  cases order with
  | little => exact lowFirst_ofLowFirst bs
  | big =>
    have h := lowFirst_ofLowFirst bs.reverse
    rw [List.length_reverse] at h
    simp [bytes, toNat, h]

theorem ofLowFirst_lt (bs : List UInt8) : ofLowFirst bs < capacity bs.length := by
  induction bs with
  | nil => simp [ofLowFirst, capacity]
  | cons b bs ih =>
    have := b.toNat_lt
    rw [ofLowFirst, List.length_cons, capacity]
    omega

theorem toNat_lt (order : ByteOrder) (bs : List UInt8) : order.toNat bs < capacity bs.length := by
  cases order with
  | little => exact ofLowFirst_lt bs
  | big => simpa [toNat] using ofLowFirst_lt bs.reverse

end ByteOrder

end LasFile
