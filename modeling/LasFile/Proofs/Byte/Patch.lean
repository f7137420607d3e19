import LasFile.Byte.Slice

/-!
# Parts written over bytes

What stands at each place of a byte string after parts of it were overwritten one after the other.
A place outside of all parts is left alone. Where every part was taken from the same place of one
source, the order of the parts does not matter and they may overlap.
-/

namespace LasFile.Bytes

/-! ## One part -/

theorem getElem?_slice (bs : Bytes) (start length i : Nat) :
    (slice bs start length)[i]? = if i < length then bs[start + i]? else none := by
  rw [slice, List.getElem?_take]
  split
  · rw [List.getElem?_drop]
  · rfl

theorem length_slice {bs : Bytes} {start length : Nat} (h : start + length ≤ bs.length) :
    (slice bs start length).length = length := by
  rw [slice, List.length_take, List.length_drop]
  omega

/-- A part is cut at one of its places. -/
theorem slice_append_slice (bs : Bytes) (start first second : Nat) :
    slice bs start first ++ slice bs (start + first) second = slice bs start (first + second) := by
  rw [slice, slice, slice, List.take_add, List.drop_drop]

/-- A part of a part. -/
theorem slice_slice {bs : Bytes} {start length inner width : Nat} (h : inner + width ≤ length) :
    slice (slice bs start length) inner width = slice bs (start + inner) width := by
  rw [slice, slice, slice, List.drop_take, List.take_take, List.drop_drop,
    Nat.min_eq_left (by omega)]

variable {bs part : Bytes} {start i : Nat}

theorem getElem?_overwrite (h : start + part.length ≤ bs.length) (i : Nat) :
    (overwrite bs start part)[i]? =
      if start ≤ i ∧ i < start + part.length then part[i - start]? else bs[i]? := by
  have hgap : start - bs.length = 0 := by omega
  have hfront : (bs.take start).length = start := by
    rw [List.length_take]
    omega
  rw [overwrite, hgap, List.replicate_zero, List.append_nil, List.getElem?_append,
    List.length_append, hfront]
  by_cases hbehind : i < start + part.length
  · rw [if_pos hbehind, List.getElem?_append, hfront]
    by_cases hbefore : i < start
    · rw [if_pos hbefore, if_neg (by omega), List.getElem?_take, if_pos hbefore]
    · rw [if_neg hbefore, if_pos ⟨Nat.not_lt.1 hbefore, hbehind⟩]
  · rw [if_neg hbehind, if_neg (by omega), List.getElem?_drop,
      Nat.add_sub_cancel' (Nat.not_lt.1 hbehind)]

/-! ## Parts in a row -/

/-- The bytes with some parts written over them in order, each with the place where it begins. -/
def patch (bs : Bytes) (parts : List (Nat × Bytes)) : Bytes :=
  parts.foldl (fun written part ↦ written.overwrite part.1 part.2) bs

variable {parts : List (Nat × Bytes)}

@[simp]
theorem patch_nil (bs : Bytes) : patch bs [] = bs := rfl

@[simp]
theorem patch_cons (bs : Bytes) (part : Nat × Bytes) (parts : List (Nat × Bytes)) :
    patch bs (part :: parts) = patch (bs.overwrite part.1 part.2) parts := rfl

theorem patch_append (bs : Bytes) (first second : List (Nat × Bytes)) :
    patch bs (first ++ second) = patch (patch bs first) second := List.foldl_append

/-- Parts within the bytes keep their number. -/
theorem length_patch (h : ∀ part ∈ parts, part.1 + part.2.length ≤ bs.length) :
    (patch bs parts).length = bs.length := by
  induction parts generalizing bs with
  | nil => rfl
  | cons part parts ih =>
    obtain ⟨hpart, hparts⟩ := List.forall_mem_cons.1 h
    have hlength := length_overwrite hpart
    rw [patch_cons, ih (by rwa [hlength]), hlength]

/-- A place outside of all parts is left alone. -/
theorem getElem?_patch_of_outside (h : ∀ part ∈ parts, part.1 + part.2.length ≤ bs.length)
    (houtside : ∀ part ∈ parts, i < part.1 ∨ part.1 + part.2.length ≤ i) :
    (patch bs parts)[i]? = bs[i]? := by
  induction parts generalizing bs with
  | nil => rfl
  | cons part parts ih =>
    obtain ⟨hpart, hparts⟩ := List.forall_mem_cons.1 h
    obtain ⟨hhere, hrest⟩ := List.forall_mem_cons.1 houtside
    rw [patch_cons, ih (by rwa [length_overwrite hpart]) hrest, getElem?_overwrite hpart,
      if_neg (by omega)]

/-- A part stands where it was written if all later ones keep away from it. -/
theorem slice_patch_cons (hpart : start + part.length ≤ bs.length)
    (h : ∀ later ∈ parts, later.1 + later.2.length ≤ bs.length)
    (hapart : ∀ later ∈ parts, ∀ i < part.length,
      start + i < later.1 ∨ later.1 + later.2.length ≤ start + i) :
    slice (patch bs ((start, part) :: parts)) start part.length = part := by
  apply List.ext_getElem?
  intro i
  rw [getElem?_slice, patch_cons]
  split
  next hi =>
    have hlengths : ∀ later ∈ parts,
        later.1 + later.2.length ≤ (bs.overwrite start part).length := by
      rwa [length_overwrite hpart]
    rw [getElem?_patch_of_outside hlengths fun later hlater ↦ hapart later hlater i hi,
      getElem?_overwrite hpart, if_pos (by omega), Nat.add_sub_cancel_left]
  next hi => exact (List.getElem?_eq_none (Nat.not_lt.1 hi)).symm

/-- The same parts over two byte strings of one length. A place that some part covers does not
depend on what was there before. -/
theorem getElem?_patch_congr {first second : Bytes} (hlength : first.length = second.length)
    (h : ∀ part ∈ parts, part.1 + part.2.length ≤ first.length)
    (hplace : first[i]? = second[i]? ∨
      ∃ part ∈ parts, part.1 ≤ i ∧ i < part.1 + part.2.length) :
    (patch first parts)[i]? = (patch second parts)[i]? := by
  induction parts generalizing first second with
  | nil => simpa using hplace
  | cons part parts ih =>
    obtain ⟨hpart, hparts⟩ := List.forall_mem_cons.1 h
    have hpart' : part.1 + part.2.length ≤ second.length := hlength ▸ hpart
    have hfirst := getElem?_overwrite hpart i
    have hsecond := getElem?_overwrite hpart' i
    rw [patch_cons, patch_cons]
    apply ih
    · rw [length_overwrite hpart, length_overwrite hpart', hlength]
    · rwa [length_overwrite hpart]
    · by_cases hinside : part.1 ≤ i ∧ i < part.1 + part.2.length
      · rw [if_pos hinside] at hfirst hsecond
        exact .inl (hfirst.trans hsecond.symm)
      · rw [if_neg hinside] at hfirst hsecond
        rw [hfirst, hsecond]
        rcases hplace with hsame | ⟨other, hother, hcovers⟩
        · exact .inl hsame
        · rcases List.mem_cons.1 hother with rfl | hlater
          · exact absurd hcovers hinside
          · exact .inr ⟨other, hlater, hcovers⟩

/-- Parts of one source are put back in their places. -/
theorem getElem?_patch_of_source {source : Bytes}
    (h : ∀ part ∈ parts, part.1 + part.2.length ≤ bs.length)
    (hsource : ∀ part ∈ parts, slice source part.1 part.2.length = part.2) (i : Nat) :
    (patch bs parts)[i]? =
      if ∃ part ∈ parts, part.1 ≤ i ∧ i < part.1 + part.2.length then source[i]? else bs[i]? := by
  induction parts generalizing bs with
  | nil => simp
  | cons part parts ih =>
    obtain ⟨hpart, hparts⟩ := List.forall_mem_cons.1 h
    obtain ⟨hhere, hrest⟩ := List.forall_mem_cons.1 hsource
    rw [patch_cons, ih (by rwa [length_overwrite hpart]) hrest, getElem?_overwrite hpart]
    simp only [List.mem_cons, exists_eq_or_imp]
    by_cases hlater : ∃ part ∈ parts, part.1 ≤ i ∧ i < part.1 + part.2.length
    · rw [if_pos hlater, if_pos (.inr hlater)]
    · rw [if_neg hlater]
      by_cases hinside : part.1 ≤ i ∧ i < part.1 + part.2.length
      · have hplace := congrArg (·[i - part.1]?) hhere
        simp only [getElem?_slice] at hplace
        rw [if_pos (by omega), Nat.add_sub_cancel' hinside.1] at hplace
        rw [if_pos hinside, if_pos (.inl hinside), hplace]
      · rw [if_neg hinside, if_neg (not_or.2 ⟨hinside, hlater⟩)]

end LasFile.Bytes
