/-!
# Parts of byte strings

Reading a part, overwriting a part, and cutting a byte string into equal parts.
-/

namespace LasFile

/-- A string of bytes. -/
abbrev Bytes := List UInt8

namespace Bytes

/-- The `length` bytes from `start` on, or as many as there are. -/
def slice (bs : Bytes) (start length : Nat) : Bytes := (bs.drop start).take length

/-- The bytes with those from `start` on replaced by `part`. A gap before `start` is filled with
zeros and the part may reach past the end. -/
def overwrite (bs : Bytes) (start : Nat) (part : Bytes) : Bytes :=
  bs.take start ++ List.replicate (start - bs.length) 0 ++ part ++ bs.drop (start + part.length)

/-- The first `count` parts of `size` bytes. -/
def parts (size : Nat) : Nat → Bytes → List Bytes
  | 0, _ => []
  | count + 1, bs => bs.take size :: parts size count (bs.drop size)

/-- The whole parts of `size` bytes; a rest that is shorter is left out. -/
def chunks (size : Nat) (bs : Bytes) : List Bytes := parts size (bs.length / size) bs

/-- `width` bytes: those given, cut or followed by zeros. -/
def padded (width : Nat) (bs : Bytes) : Bytes :=
  bs.take width ++ List.replicate (width - bs.length) 0

@[simp]
theorem length_padded (width : Nat) (bs : Bytes) : (padded width bs).length = width := by
  simp only [padded, List.length_append, List.length_take, List.length_replicate]
  omega

/-- Overwriting within the bytes keeps their number. -/
theorem length_overwrite {bs part : Bytes} {start : Nat} (h : start + part.length ≤ bs.length) :
    (overwrite bs start part).length = bs.length := by
  simp only [overwrite, List.length_append, List.length_take, List.length_replicate,
    List.length_drop]
  omega

@[simp]
theorem length_parts (size count : Nat) (bs : Bytes) : (parts size count bs).length = count := by
  induction count generalizing bs with
  | zero => rfl
  | succ count ih => simp [parts, ih]

end Bytes

end LasFile
