import LasFile.Text.Utf8

/-!
# Text fields of fixed width

A text field has a fixed number of bytes and ends at its first NUL. Writing cuts the text between
two characters, as far back as it has to, and fills up with NULs; reading stops at the first NUL.
-/

namespace LasFile.FixedText

/-- A text as a field of `width` bytes. -/
def encode (width : Nat) (s : String) : List UInt8 :=
  let bytes := Utf8.encode s.toList
  let kept := bytes.take (Utf8.lastBoundary bytes (min bytes.length width))
  kept ++ List.replicate (width - kept.length) 0

/-- The text of a field. -/
def decode (bytes : List UInt8) : String :=
  String.ofList (Utf8.decode (bytes.takeWhile (· != 0)))

/-- A field has exactly its width. -/
@[simp]
theorem length_encode (width : Nat) (s : String) : (encode width s).length = width := by
  have hstop := Utf8.lastBoundary_le (Utf8.encode s.toList)
    (min (Utf8.encode s.toList).length width)
  simp only [encode, List.length_append, List.length_replicate, List.length_take]
  omega

end LasFile.FixedText
