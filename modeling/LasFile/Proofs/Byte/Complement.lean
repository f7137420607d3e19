import LasFile.Byte.Order
import LasFile.Storage

/-!
# Two's complement

An integer in the range of a width and the number that stands for it determine each other. The
range of `width` bytes reaches from minus one half of the capacity to just below one half of it.
-/

namespace LasFile.ByteOrder

/-- The capacities are those of the four widths of a record. -/
theorem capacity_width (w : Width) : capacity w.bytes = match w with
    | .one => 256
    | .two => 65536
    | .four => 4294967296
    | .eight => 18446744073709551616 := by
  cases w <;> rfl

/-- An integer of any size stands for a number that its bytes hold. -/
theorem complement_lt (w : Width) (n : Int) : complement w.bytes n < capacity w.bytes := by
  have hpos : (0 : Int) < capacity w.bytes := by cases w <;> decide
  have hlt := Int.emod_lt_of_pos n hpos
  unfold complement
  omega

/-- The number of an integer that a number stands for is this number. -/
theorem complement_ofComplement {width n : Nat} (h : n < capacity width) :
    complement width (ofComplement width n) = n := by
  rw [complement, ofComplement, Int.bmod_emod, Int.emod_eq_of_lt (by omega) (by omega)]
  rfl

/-- The integer that a number of bytes stands for lies in the range of their width. -/
theorem ofComplement_bounds (w : Width) (n : Nat) :
    -(capacity w.bytes / 2 : Int) ≤ ofComplement w.bytes n ∧
      ofComplement w.bytes n ≤ (capacity w.bytes / 2 : Int) - 1 := by
  have hpos : 0 < capacity w.bytes := by cases w <;> decide
  have hlow := Int.le_bmod (x := n) hpos
  have hhigh := Int.bmod_lt (x := n) hpos
  have heven : (capacity w.bytes : Int) % 2 = 0 := by cases w <;> decide
  unfold ofComplement
  omega

/-- The integer that the number of an integer in the range stands for is this integer. -/
theorem ofComplement_complement (w : Width) {n : Int} (hlow : -(capacity w.bytes / 2 : Int) ≤ n)
    (hhigh : n ≤ (capacity w.bytes / 2 : Int) - 1) :
    ofComplement w.bytes (complement w.bytes n) = n := by
  have hpos : (0 : Int) < capacity w.bytes := by cases w <;> decide
  have hnonneg := Int.emod_nonneg n (Int.ne_of_gt hpos)
  have heven : (capacity w.bytes : Int) % 2 = 0 := by cases w <;> decide
  rw [ofComplement, complement, Int.toNat_of_nonneg hnonneg, Int.emod_bmod]
  exact Int.bmod_eq_of_le (by omega) (by omega)

end LasFile.ByteOrder
