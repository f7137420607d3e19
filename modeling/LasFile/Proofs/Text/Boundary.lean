import LasFile.Text.Fixed
import Mathlib.Data.Nat.Find

/-!
# Cuts between characters

A place in the bytes of a text is a boundary exactly if whole characters lie in front of it. The
search for the last boundary passes at most the three bytes that continue a character. What it
leaves of a text for a field is `FixedText.fit`, the longest prefix of whole characters that takes
no more than the width.
-/

namespace LasFile.Utf8

theorem encode_append (cs ds : List Char) : encode (cs ++ ds) = encode cs ++ encode ds :=
  List.flatMap_append

theorem encode_cons (c : Char) (cs : List Char) :
    encode (c :: cs) = String.utf8EncodeChar c ++ encode cs := rfl

theorem length_encode_cons (c : Char) (cs : List Char) :
    (encode (c :: cs)).length = c.utf8Size + (encode cs).length := by
  rw [encode_cons, List.length_append, String.length_utf8EncodeChar]

theorem isPrefix_encode {cs ds : List Char} (h : cs <+: ds) : encode cs <+: encode ds := by
  obtain ⟨rest, rfl⟩ := h
  rw [encode_append]
  exact List.prefix_append _ _

/-- A text takes more bytes than a prefix that leaves out a character. -/
theorem eq_of_length_encode_le {cs ds : List Char} (h : cs <+: ds)
    (hle : (encode ds).length ≤ (encode cs).length) : ds = cs := by
  obtain ⟨rest, rfl⟩ := h
  rw [encode_append, List.length_append] at hle
  cases rest with
  | nil => exact List.append_nil cs
  | cons c rest =>
    have hpos := c.utf8Size_pos
    rw [length_encode_cons] at hle
    omega

/-! ## Places in characters -/

theorem isContinuation_ofNat {n : Nat} (h : n < 256) :
    isContinuation (UInt8.ofNat n) = decide (128 ≤ n ∧ n < 192) := by
  have hbyte : (UInt8.ofNat n).toNat = n := by
    rw [UInt8.toNat_ofNat']
    omega
  simp [isContinuation, UInt8.le_iff_toNat_le, UInt8.lt_iff_toNat_lt, hbyte]

/-- All bytes of a character but the first continue it. -/
theorem isContinuation_of_encodeChar {c : Char} {i : Nat} {b : UInt8}
    (h : (String.utf8EncodeChar c)[i]? = some b) : isContinuation b = decide (i ≠ 0) := by
  have hvalid : c.val.toNat < 0x110000 := by
    rcases c.valid with h | h <;> omega
  simp only [String.utf8EncodeChar] at h
  generalize c.val.toNat = v at *
  -- One case for each length of a character and each place in it.
  rcases i with _ | _ | _ | _ | i <;> split_ifs at h <;>
    simp only [List.getElem?_cons_zero, List.getElem?_cons_succ, List.getElem?_nil,
      Option.some.injEq, reduceCtorEq] at h <;>
    subst h <;> rw [isContinuation_ofNat (by omega), decide_eq_decide] <;> omega

/-- Each place in the bytes of a text lies in one of its characters. -/
theorem exists_append_cons_of_lt {cs : List Char} {place : Nat} (h : place < (encode cs).length) :
    ∃ before c after i, cs = before ++ c :: after ∧ i < c.utf8Size ∧
      place = (encode before).length + i := by
  induction cs generalizing place with
  | nil => exact absurd h (Nat.not_lt_zero _)
  | cons c cs ih =>
    by_cases hc : place < c.utf8Size
    · exact ⟨[], c, cs, place, rfl, hc, (Nat.zero_add _).symm⟩
    · rw [length_encode_cons] at h
      have hrest : place - c.utf8Size < (encode cs).length := by omega
      obtain ⟨before, d, after, i, rfl, hi, hplace⟩ := ih hrest
      refine ⟨c :: before, d, after, i, rfl, hi, ?_⟩
      rw [length_encode_cons]
      omega

/-- A place in a character is a boundary only if the character begins there. -/
theorem isBoundary_within (before after : List Char) (c : Char) {i : Nat} (hi : i < c.utf8Size) :
    isBoundary (encode (before ++ c :: after)) ((encode before).length + i) = decide (i = 0) := by
  have hlt : i < (String.utf8EncodeChar c).length := by rwa [String.length_utf8EncodeChar]
  have hbyte : (encode (before ++ c :: after))[(encode before).length + i]? =
      some (String.utf8EncodeChar c)[i] := by
    rw [encode_append, encode_cons, List.getElem?_append_right (Nat.le_add_right _ _),
      Nat.add_sub_cancel_left, List.getElem?_append_left hlt, List.getElem?_eq_getElem hlt]
  rw [isBoundary, hbyte]
  simp only [isContinuation_of_encodeChar (List.getElem?_eq_getElem hlt)]
  by_cases hfirst : i = 0 <;> simp [hfirst]

/-! ## Boundaries -/

/-- A place is a boundary exactly if whole characters lie in front of it. -/
theorem isBoundary_encode_iff {cs : List Char} {place : Nat} :
    isBoundary (encode cs) place = true ↔ ∃ kept, kept <+: cs ∧ (encode kept).length = place := by
  constructor
  · intro h
    rcases Nat.lt_trichotomy place (encode cs).length with hlt | rfl | hgt
    · obtain ⟨before, c, after, i, rfl, hi, rfl⟩ := exists_append_cons_of_lt hlt
      rw [isBoundary_within before after c hi, decide_eq_true_eq] at h
      exact ⟨before, List.prefix_append _ _, by rw [h, Nat.add_zero]⟩
    · exact ⟨cs, List.prefix_rfl, rfl⟩
    · rw [isBoundary, List.getElem?_eq_none (Nat.le_of_lt hgt)] at h
      simp only [Bool.or_eq_true, beq_iff_eq] at h
      omega
  · rintro ⟨kept, ⟨rest, rfl⟩, rfl⟩
    cases rest with
    | nil => simp [isBoundary]
    | cons c rest => exact (isBoundary_within kept rest c c.utf8Size_pos).trans rfl

/-- The place `stop` is the last boundary up to `place`. -/
structure IsLastBoundary (bytes : List UInt8) (place stop : Nat) : Prop where
  le : stop ≤ place
  boundary : isBoundary bytes stop = true
  last : ∀ other ≤ place, isBoundary bytes other = true → other ≤ stop

/-- The search needs no test at place 0, which is a boundary of any text. -/
theorem lastBoundary_eq_findGreatest (bytes : List UInt8) (place : Nat) :
    lastBoundary bytes place = Nat.findGreatest (isBoundary bytes · = true) place := by
  induction place with
  | zero => rfl
  | succ place ih => rw [lastBoundary, Nat.findGreatest_succ, ih]

/-- The search ends at a boundary and passes none. -/
theorem isLastBoundary_lastBoundary (bytes : List UInt8) (place : Nat) :
    IsLastBoundary bytes place (lastBoundary bytes place) where
  le := lastBoundary_le bytes place
  boundary := by
    have hzero : isBoundary bytes 0 = true := rfl
    rw [lastBoundary_eq_findGreatest]
    exact Nat.findGreatest_spec (P := (isBoundary bytes · = true)) (Nat.zero_le place) hzero
  last other hother hboundary := by
    rw [lastBoundary_eq_findGreatest]
    exact Nat.le_findGreatest hother hboundary

/-- The search passes no more than the bytes that continue one character. -/
theorem IsLastBoundary.le_add_three {cs : List Char} {place stop : Nat}
    (h : IsLastBoundary (encode cs) place stop) (hplace : place ≤ (encode cs).length) :
    place ≤ stop + 3 := by
  rcases Nat.lt_or_eq_of_le hplace with hlt | rfl
  · obtain ⟨before, c, after, i, rfl, hi, rfl⟩ := exists_append_cons_of_lt hlt
    have hbefore : (encode before).length ≤ stop :=
      h.last _ (Nat.le_add_right _ i)
        (isBoundary_encode_iff.2 ⟨before, List.prefix_append _ _, rfl⟩)
    have hsize := c.utf8Size_le_four
    omega
  · have hend : (encode cs).length ≤ stop :=
      h.last _ (Nat.le_refl _) (isBoundary_encode_iff.2 ⟨cs, List.prefix_rfl, rfl⟩)
    omega

end LasFile.Utf8

namespace LasFile.FixedText

/-! ## The longest prefix that fits -/

/-- The longest prefix of whole characters that takes at most `width` bytes. -/
def fit : Nat → List Char → List Char
  | _, [] => []
  | width, c :: cs =>
    if c.utf8Size ≤ width then c :: fit (width - c.utf8Size) cs else []

/-- The characters `kept` are the longest prefix of `cs` that takes at most `width` bytes. -/
structure IsLongestFit (width : Nat) (cs kept : List Char) : Prop where
  isPrefix : kept <+: cs
  fits : (Utf8.encode kept).length ≤ width
  longest : ∀ other, other <+: cs → (Utf8.encode other).length ≤ width → other <+: kept

theorem IsLongestFit.unique {width : Nat} {cs kept other : List Char}
    (hkept : IsLongestFit width cs kept) (hother : IsLongestFit width cs other) : kept = other :=
  (hother.longest kept hkept.isPrefix hkept.fits).eq_of_length_le
    (hkept.longest other hother.isPrefix hother.fits).length_le

/-- A prefix that fits takes no more bytes than the width. -/
theorem length_encode_fit (width : Nat) (cs : List Char) :
    (Utf8.encode (fit width cs)).length ≤ width := by
  induction cs generalizing width with
  | nil => simp [fit, Utf8.encode]
  | cons c cs ih =>
    unfold fit
    split
    next h =>
      have := ih (width - c.utf8Size)
      rw [Utf8.length_encode_cons]
      omega
    next => simp [Utf8.encode]

/-- What fits is a prefix. -/
theorem isPrefix_fit (width : Nat) (cs : List Char) : fit width cs <+: cs := by
  induction cs generalizing width with
  | nil => exact List.prefix_rfl
  | cons c cs ih =>
    unfold fit
    split
    · exact (List.cons_prefix_cons).2 ⟨rfl, ih _⟩
    · exact List.nil_prefix

theorem isLongestFit_fit (width : Nat) (cs : List Char) : IsLongestFit width cs (fit width cs) where
  isPrefix := isPrefix_fit width cs
  fits := length_encode_fit width cs
  longest := by
    induction cs generalizing width with
    | nil =>
      rintro other hother -
      exact hother
    | cons c cs ih =>
      intro other hother hsize
      cases other with
      | nil => exact List.nil_prefix
      | cons first rest =>
        obtain ⟨rfl, hrest⟩ := List.cons_prefix_cons.1 hother
        rw [Utf8.length_encode_cons] at hsize
        rw [fit, if_pos (by omega), List.cons_prefix_cons]
        exact ⟨rfl, ih _ rest hrest (by omega)⟩

/-- The last boundary up to a width ends the longest prefix that fits. -/
theorem exists_isLongestFit {width stop : Nat} {cs : List Char}
    (h : Utf8.IsLastBoundary (Utf8.encode cs) (min (Utf8.encode cs).length width) stop) :
    ∃ kept, IsLongestFit width cs kept ∧ (Utf8.encode kept).length = stop := by
  obtain ⟨kept, hkept, rfl⟩ := Utf8.isBoundary_encode_iff.1 h.boundary
  refine ⟨kept, ⟨hkept, Nat.le_trans h.le (Nat.min_le_right _ _), fun other hother hsize ↦ ?_⟩, rfl⟩
  have hlength := (Utf8.isPrefix_encode hother).length_le
  have hstop : (Utf8.encode other).length ≤ (Utf8.encode kept).length :=
    h.last _ (Nat.le_min.2 ⟨hlength, hsize⟩) (Utf8.isBoundary_encode_iff.2 ⟨other, hother, rfl⟩)
  -- Of two prefixes one is a prefix of the other, and `other` takes no more bytes than `kept`.
  rcases List.prefix_or_prefix_of_prefix hother hkept with hle | hge
  · exact hle
  · exact Utf8.eq_of_length_encode_le hge hstop ▸ List.prefix_rfl

/-- The search ends behind what fits. -/
theorem lastBoundary_encode (width : Nat) (cs : List Char) :
    Utf8.lastBoundary (Utf8.encode cs) (min (Utf8.encode cs).length width) =
      (Utf8.encode (fit width cs)).length := by
  obtain ⟨kept, hkept, hstop⟩ := exists_isLongestFit (Utf8.isLastBoundary_lastBoundary _ _)
  rw [← hstop, hkept.unique (isLongestFit_fit width cs)]

/-- A field holds what fits of a text and is filled up with NULs. -/
theorem encode_eq_fit (width : Nat) (s : String) :
    encode width s = Utf8.encode (fit width s.toList) ++
      List.replicate (width - (Utf8.encode (fit width s.toList)).length) 0 := by
  have hkept := List.prefix_iff_eq_take.1 (Utf8.isPrefix_encode (isPrefix_fit width s.toList))
  simp only [encode, lastBoundary_encode, ← hkept]

end LasFile.FixedText
