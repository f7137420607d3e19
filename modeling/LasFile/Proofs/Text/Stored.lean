import LasFile.Proofs.Text.Boundary
import Mathlib.Data.List.TakeWhile

/-!
# Texts as they are stored

Reading undoes writing for UTF-8, so that a field of fixed width holds exactly the prefix that fits,
up to its first NUL. `FixedText.stored` names that text; it is the text itself if the text is short
enough and has no NUL. `FixedText.isCut_decode_encode` says this of any text and any width, with
where the search for the cut ends.
-/

namespace LasFile.Utf8

/-! ## One character -/

/-- A byte in the expected range adds its low six bits. -/
theorem advance_in_range (s : Started) (n : Nat) (hlow : s.low.toNat ≤ n % 64 + 128)
    (hhigh : n % 64 + 128 ≤ s.high.toNat) :
    advance (some s) (UInt8.ofNat (n % 64 + 128)) =
      match s.left with
      | 0 => ([Char.ofNat (s.code * 64 + n % 64)], none)
      | left + 1 => ([], some ⟨s.code * 64 + n % 64, left, 0x80, 0xBF⟩) := by
  have hbyte : (UInt8.ofNat (n % 64 + 128)).toNat = n % 64 + 128 := by
    rw [UInt8.toNat_ofNat']
    omega
  have hbits : (n % 64 + 128) % 64 = n % 64 := by omega
  have hrange : (s.low ≤ UInt8.ofNat (n % 64 + 128) && UInt8.ofNat (n % 64 + 128) ≤ s.high) := by
    simp only [UInt8.le_iff_toNat_le, hbyte, Bool.and_eq_true, decide_eq_true_eq]
    exact ⟨hlow, hhigh⟩
  obtain ⟨code, left, low, high⟩ := s
  cases left <;> simp only [advance, hrange, hbyte, hbits, if_true]

theorem lead_two {n : Nat} (hlow : 2 ≤ n) (hhigh : n < 32) :
    lead (UInt8.ofNat (n + 0xC0)) = .sequence ⟨n, 0, 0x80, 0xBF⟩ := by
  have hbyte : (UInt8.ofNat (n + 0xC0)).toNat = n + 0xC0 := by
    rw [UInt8.toNat_ofNat']
    omega
  simp only [lead, hbyte]
  grind

theorem lead_three {n : Nat} (h : n < 16) :
    lead (UInt8.ofNat (n + 0xE0)) =
      .sequence ⟨n, 1, if n = 0 then 0xA0 else 0x80, if n = 13 then 0x9F else 0xBF⟩ := by
  have hbyte : (UInt8.ofNat (n + 0xE0)).toNat = n + 0xE0 := by
    rw [UInt8.toNat_ofNat']
    omega
  simp only [lead, hbyte]
  grind

theorem lead_four {n : Nat} (h : n < 5) :
    lead (UInt8.ofNat (n + 0xF0)) =
      .sequence ⟨n, 2, if n = 0 then 0x90 else 0x80, if n = 4 then 0x8F else 0xBF⟩ := by
  have hbyte : (UInt8.ofNat (n + 0xF0)).toNat = n + 0xF0 := by
    rw [UInt8.toNat_ofNat']
    omega
  simp only [lead, hbyte]
  grind

theorem decodeFrom_none_cons (b : UInt8) (bs : List UInt8) :
    decodeFrom none (b :: bs) = (begin b).1 ++ decodeFrom (begin b).2 bs := by
  simp [decodeFrom, advance]

theorem decodeFrom_some_cons (s : Started) (b : UInt8) (bs : List UInt8) :
    decodeFrom (some s) (b :: bs) =
      (advance (some s) b).1 ++ decodeFrom (advance (some s) b).2 bs := by
  simp [decodeFrom]

/-- The bytes of a character complete it and leave no sequence under way. -/
theorem decodeFrom_encodeChar (c : Char) (rest : List UInt8) :
    decodeFrom none (String.utf8EncodeChar c ++ rest) = c :: decodeFrom none rest := by
  have hvalid : c.val.toNat < 0xD800 ∨ 0xDFFF < c.val.toNat ∧ c.val.toNat < 0x110000 := c.valid
  have hchar (n : Nat) (h : n = c.val.toNat) : Char.ofNat n = c := h ▸ Char.ofNat_toNat c
  simp only [String.utf8EncodeChar]
  generalize c.val.toNat = v at *
  split
  next h =>
    have hbyte : (UInt8.ofNat v).toNat = v := by
      rw [UInt8.toNat_ofNat']
      omega
    have hlead : lead (UInt8.ofNat v) = .character (Char.ofNat v) := by
      simp only [lead, hbyte]
      grind
    simp [decodeFrom_none_cons, begin, hlead, hchar]
  next h1 =>
    split
    next h2 =>
      have hlead : lead (UInt8.ofNat (v / 64 % 32 + 192)) = _ := lead_two (by omega) (by omega)
      have hlast := advance_in_range ⟨v / 64 % 32, 0, 0x80, 0xBF⟩ v
        (by simp) (by simp only [UInt8.reduceToNat]; omega)
      simp only [List.cons_append, List.nil_append, decodeFrom_none_cons, begin, hlead,
        decodeFrom_some_cons, hlast, List.cons.injEq, and_true]
      exact hchar _ (by omega)
    next h2 =>
      split
      next h3 =>
        have hlead : lead (UInt8.ofNat (v / 4096 % 16 + 224)) = _ := lead_three (by omega)
        have hsecond := advance_in_range
          ⟨v / 4096 % 16, 1, if v / 4096 % 16 = 0 then 0xA0 else 0x80,
            if v / 4096 % 16 = 13 then 0x9F else 0xBF⟩ (v / 64)
          (by dsimp only; split <;> simp only [UInt8.reduceToNat] <;> omega)
          (by dsimp only; split <;> simp only [UInt8.reduceToNat] <;> omega)
        have hlast := advance_in_range ⟨v / 4096 % 16 * 64 + v / 64 % 64, 0, 0x80, 0xBF⟩ v
          (by simp) (by simp only [UInt8.reduceToNat]; omega)
        simp only [List.cons_append, List.nil_append, decodeFrom_none_cons, begin, hlead,
          decodeFrom_some_cons, hsecond, hlast, List.cons.injEq, and_true]
        exact hchar _ (by omega)
      next h3 =>
        have hlead : lead (UInt8.ofNat (v / 262144 % 8 + 240)) = _ := lead_four (by omega)
        have hsecond := advance_in_range
          ⟨v / 262144 % 8, 2, if v / 262144 % 8 = 0 then 0x90 else 0x80,
            if v / 262144 % 8 = 4 then 0x8F else 0xBF⟩ (v / 4096)
          (by dsimp only; split <;> simp only [UInt8.reduceToNat] <;> omega)
          (by dsimp only; split <;> simp only [UInt8.reduceToNat] <;> omega)
        have hthird := advance_in_range
          ⟨v / 262144 % 8 * 64 + v / 4096 % 64, 1, 0x80, 0xBF⟩ (v / 64)
          (by simp) (by simp only [UInt8.reduceToNat]; omega)
        have hlast := advance_in_range
          ⟨(v / 262144 % 8 * 64 + v / 4096 % 64) * 64 + v / 64 % 64, 0, 0x80, 0xBF⟩ v
          (by simp) (by simp only [UInt8.reduceToNat]; omega)
        simp only [List.cons_append, List.nil_append, decodeFrom_none_cons, begin, hlead,
          decodeFrom_some_cons, hsecond, hthird, hlast, List.cons.injEq, and_true]
        exact hchar _ (by omega)

@[simp] theorem decode_encode (cs : List Char) : decode (encode cs) = cs := by
  induction cs with
  | nil => rfl
  | cons c cs ih =>
    rw [encode_cons, decode, decodeFrom_encodeChar]
    exact congrArg (c :: ·) ih

theorem length_encode (cs : List Char) : (encode cs).length = (String.ofList cs).utf8ByteSize := by
  rw [← String.size_toByteArray, ← String.utf8Encode_toList, String.toList_ofList]
  simp [encode, List.utf8Encode]

theorem length_encode_toList (s : String) : (encode s.toList).length = s.utf8ByteSize := by
  rw [length_encode, String.ofList_toList]

/-! ## Ends at a NUL -/

theorem ne_zero_of_mem_encodeChar {c : Char} (hc : c ≠ '\x00') {b : UInt8}
    (hb : b ∈ String.utf8EncodeChar c) : b ≠ 0 := by
  have hpos : c.val.toNat ≠ 0 := fun h ↦ hc (Char.ext (UInt32.toNat_inj.1 h))
  have hvalid : c.val.toNat < 0x110000 := by
    rcases c.valid with h | h <;> omega
  simp only [String.utf8EncodeChar] at hb
  rw [ne_eq, ← UInt8.toNat_inj]
  generalize c.val.toNat = v at *
  grind [UInt8.toNat_ofNat']

/-- A NUL is the only character with a zero byte. -/
theorem takeWhile_encode (cs : List Char) (zeros : Nat) :
    (encode cs ++ List.replicate zeros 0).takeWhile (· != 0) =
      encode (cs.takeWhile (· != '\x00')) := by
  induction cs with
  | nil => cases zeros <;> simp [encode, List.replicate_succ]
  | cons c cs ih =>
    by_cases hc : c = '\x00'
    · subst hc
      rfl
    · have hbytes : ∀ b ∈ String.utf8EncodeChar c, (b != 0) = true := fun b hb ↦ by
        simpa using ne_zero_of_mem_encodeChar hc hb
      simp only [encode, List.flatMap_cons, List.append_assoc] at ih ⊢
      rw [List.takeWhile_append_of_pos hbytes, ih]
      simp [hc]

end LasFile.Utf8

namespace LasFile.FixedText

/-! ## Fields of fixed width -/

/-- The text that a field of `width` bytes holds for a text: what fits of it, up to the first
NUL. -/
def stored (width : Nat) (s : String) : String :=
  String.ofList ((fit width s.toList).takeWhile (· != '\x00'))

/-- Reading a field gives the text that it holds. -/
@[simp] theorem decode_encode (width : Nat) (s : String) :
    decode (encode width s) = stored width s := by
  simp only [decode, encode_eq_fit, Utf8.takeWhile_encode, Utf8.decode_encode, stored]

/-- A text that takes no more than the width is not cut. -/
theorem fit_eq_self {width : Nat} {cs : List Char} (h : (Utf8.encode cs).length ≤ width) :
    fit width cs = cs :=
  (isLongestFit_fit width cs).unique ⟨List.prefix_rfl, h, fun _ hother _ ↦ hother⟩

/-- A cut leaves less room than the longest character needs. -/
theorem fit_eq_self_of_room {width : Nat} {cs : List Char}
    (h : (Utf8.encode (fit width cs)).length + 3 < width) : fit width cs = cs := by
  have hpassed := (Utf8.isLastBoundary_lastBoundary (Utf8.encode cs)
    (min (Utf8.encode cs).length width)).le_add_three (Nat.min_le_left _ _)
  rw [lastBoundary_encode] at hpassed
  exact fit_eq_self (by omega)

theorem takeWhile_ne_nul {cs : List Char} (h : '\x00' ∉ cs) : cs.takeWhile (· != '\x00') = cs :=
  List.takeWhile_eq_self_iff.2 fun c hc ↦ by
    simpa using fun hnul : c = '\x00' ↦ h (hnul ▸ hc)

theorem stored_eq_self {width : Nat} {s : String} (hfit : s.utf8ByteSize ≤ width)
    (hnul : '\x00' ∉ s.toList) : stored width s = s := by
  rw [← Utf8.length_encode_toList] at hfit
  rw [stored, fit_eq_self hfit, takeWhile_ne_nul hnul, String.ofList_toList]

/-- The text `t` is `s` cut to at most `width` bytes between characters, and at the first NUL. -/
def IsCut (width : Nat) (s t : String) : Prop :=
  ∃ kept, IsLongestFit width s.toList kept ∧ t = String.ofList (kept.takeWhile (· != '\x00'))

/-- A field holds the text that was cut for it. -/
theorem isCut_iff {width : Nat} {s t : String} : IsCut width s t ↔ t = stored width s := by
  constructor
  · rintro ⟨kept, hkept, rfl⟩
    rw [hkept.unique (isLongestFit_fit width s.toList), stored]
  · rintro rfl
    exact ⟨_, isLongestFit_fit width s.toList, rfl⟩

theorem mem_of_mem_fit {width : Nat} {cs : List Char} {c : Char} (h : c ∈ fit width cs) :
    c ∈ cs := (isPrefix_fit width cs).subset h

/-- A field holds a text as it is exactly if the text takes no more than the width and has no
NUL. -/
theorem stored_eq_self_iff {width : Nat} {s : String} :
    stored width s = s ↔ s.utf8ByteSize ≤ width ∧ '\x00' ∉ s.toList := by
  constructor
  · intro h
    have hkept : (fit width s.toList).takeWhile (· != '\x00') = s.toList := by
      rw [← String.toList_ofList (l := (fit width s.toList).takeWhile (· != '\x00'))]
      exact congrArg String.toList h
    have hfit : fit width s.toList = s.toList := by
      have hcut := List.takeWhile_prefix (l := fit width s.toList) (· != '\x00')
      rw [hkept] at hcut
      exact (isPrefix_fit width s.toList).eq_of_length_le hcut.length_le
    rw [hfit] at hkept
    constructor
    · have hlength := length_encode_fit width s.toList
      rwa [hfit, Utf8.length_encode_toList] at hlength
    · intro hnul
      have hall := List.takeWhile_eq_self_iff.1 hkept _ hnul
      simp at hall
  · rintro ⟨hfit, hnul⟩
    exact stored_eq_self hfit hnul

/-- What a field holds is held by another one of its width. -/
theorem stored_stored (width : Nat) (s : String) :
    stored width (stored width s) = stored width s := by
  have hcut : (fit width s.toList).takeWhile (· != '\x00') <+: fit width s.toList :=
    List.takeWhile_prefix _
  apply stored_eq_self
  · rw [stored, ← Utf8.length_encode]
    exact Nat.le_trans (Utf8.isPrefix_encode hcut).length_le (length_encode_fit width s.toList)
  · intro hnul
    rw [stored, String.toList_ofList] at hnul
    simpa using List.mem_takeWhile_imp hnul

/-- A field that holds a text with room to spare was written with that text. -/
theorem eq_of_stored_eq {width : Nat} {s t : String} (hnul : '\x00' ∉ s.toList)
    (hroom : t.utf8ByteSize + 3 < width) (h : stored width s = t) : s = t := by
  have hfit : fit width s.toList = t.toList := by
    rw [← h, stored, String.toList_ofList, takeWhile_ne_nul fun hc ↦ hnul (mem_of_mem_fit hc)]
  have hcut := fit_eq_self_of_room (by rwa [hfit, Utf8.length_encode_toList])
  rw [← String.ofList_toList (s := s), ← hcut, hfit, String.ofList_toList]

/-- What becomes of any text in a field. The search for the cut goes back from the width, or from
the end of a shorter text, to the last boundary, which is at most three places away. The bytes up to
there are filled up to the width, and what is read from them is the longest prefix of whole
characters that fits, up to its first NUL. This is the text itself exactly if it takes no more than
the width and has no NUL, and a second passage changes nothing. -/
theorem isCut_decode_encode (width : Nat) (s : String) :
    (∃ stop,
      Utf8.IsLastBoundary (Utf8.encode s.toList) (min s.utf8ByteSize width) stop ∧
      min s.utf8ByteSize width ≤ stop + 3 ∧
      encode width s = (Utf8.encode s.toList).take stop ++ List.replicate (width - stop) 0) ∧
    (encode width s).length = width ∧
    IsCut width s (decode (encode width s)) ∧
    (decode (encode width s) = s ↔ s.utf8ByteSize ≤ width ∧ '\x00' ∉ s.toList) ∧
    decode (encode width (decode (encode width s))) = decode (encode width s) := by
  have hsize := Utf8.length_encode_toList s
  have hlast := Utf8.isLastBoundary_lastBoundary (Utf8.encode s.toList)
    (min (Utf8.encode s.toList).length width)
  have hpassed := hlast.le_add_three (Nat.min_le_left _ _)
  rw [hsize] at hlast hpassed
  have hkept := Nat.le_trans hlast.le (Nat.min_le_left _ _)
  refine ⟨⟨_, hlast, hpassed, ?_⟩, length_encode width s, ?_, ?_, ?_⟩
  · simp only [encode, List.length_take, hsize, Nat.min_eq_left hkept]
  · rw [decode_encode, isCut_iff]
  · rw [decode_encode, stored_eq_self_iff]
  · rw [decode_encode, decode_encode, stored_stored]

example : encode 3 "a€" = [97, 0, 0] := by decide

end LasFile.FixedText
