import LasFile.Proofs.Json.Tokens
import Mathlib.Data.List.TakeDrop

/-!
# Numerals in characters

A `Spelling` is a numeral as it is written, with its digits as characters. It is read as one token,
whose parts are the number of all its digits and the power of ten that belongs to it, as long as the
digits fit sixty-four bits. A decimal is spelled with all of its places or with an exponent.
-/

namespace LasFile.Json

/-- The digits that characters stand for. -/
def digitValues (cs : List Char) : List Nat := cs.map fun c ↦ c.toNat - '0'.toNat

/-- Characters that are digits, one at least. -/
structure Digits (cs : List Char) : Prop where
  ne_nil : cs ≠ []
  isDigit : ∀ c ∈ cs, c.isDigit = true

/-! ## Digits -/

theorem digits_toDigits (n : Nat) : Digits (Nat.toDigits 10 n) where
  ne_nil := Nat.toDigits_ne_nil
  isDigit _ := Nat.isDigit_of_mem_toDigits (by decide) (by decide)

theorem digits_zero : Digits ['0'] where
  ne_nil := List.cons_ne_nil _ _
  isDigit c hc := by
    rw [List.mem_singleton.1 hc]
    rfl

theorem head?_toDigits_append (n : Nat) (more : List Char) :
    (Nat.toDigits 10 n ++ more).head? = (Nat.toDigits 10 n).head? := by
  cases h : Nat.toDigits 10 n with
  | nil => exact absurd h Nat.toDigits_ne_nil
  | cons c cs => rfl

/-- The first digit of a positive number is none of zero. -/
theorem head?_toDigits_ne {n : Nat} (hn : 0 < n) : (Nat.toDigits 10 n).head? ≠ some '0' := by
  induction n using Nat.strongRecOn with
  | ind n ih =>
    rw [Nat.toDigits_eq_if (by decide)]
    split
    next => simp; omega
    next hlarge =>
      rw [head?_toDigits_append]
      exact ih (n / 10) (by omega) (by omega)

/-- More digits do not make a number less. -/
theorem le_ofDigitChars (cs : List Char) (n : Nat) : n ≤ Nat.ofDigitChars 10 cs n := by
  induction cs generalizing n with
  | nil => exact Nat.le_refl n
  | cons c cs ih =>
    rw [Nat.ofDigitChars_cons]
    exact Nat.le_trans (by omega) (ih _)

namespace Numeral

/-- All digits are taken in if their number fits sixty-four bits. -/
theorem accumulate_digitValues {cs : List Char} {n : Nat}
    (h : Nat.ofDigitChars 10 cs n < UInt64.size) :
    accumulate n (digitValues cs) = (Nat.ofDigitChars 10 cs n, []) := by
  induction cs generalizing n with
  | nil => rfl
  | cons c cs ih =>
    rw [Nat.ofDigitChars_cons] at h ⊢
    have hfits := Nat.lt_of_le_of_lt (le_ofDigitChars cs _) h
    rw [← ih h]
    exact if_pos hfits

end Numeral

namespace Token

variable {ds rest : List Char}

/-- Digits are taken up to the first character that is none. -/
theorem digits_append (hds : ∀ c ∈ ds, c.isDigit = true)
    (hrest : ∀ c, rest.head? = some c → c.isDigit = false) :
    digits (ds ++ rest) = (digitValues ds, rest) := by
  have hnone : rest.takeWhile Char.isDigit = [] ∧ rest.dropWhile Char.isDigit = rest := by
    cases rest with
    | nil => exact ⟨rfl, rfl⟩
    | cons c rest => simp [hrest c rfl]
  rw [digits, List.span_eq_takeWhile_dropWhile, List.takeWhile_append_of_pos hds,
    List.dropWhile_append_of_pos hds, hnone.1, hnone.2, List.append_nil]
  rfl

theorem someDigits_append (hds : Digits ds)
    (hrest : ∀ c, rest.head? = some c → c.isDigit = false) :
    someDigits (ds ++ rest) = some (digitValues ds, rest) := by
  have hsome : (digitValues ds).isEmpty = false := by
    simpa [digitValues] using hds.ne_nil
  simp [someDigits, digits_append hds.isDigit hrest, hsome]

end Token

/-! ## Spellings -/

/-- A numeral as it is written. -/
structure Spelling where
  whole : List Char
  /-- The digits after the point, if there is one. -/
  fraction : Option (List Char)
  exponent : Option Int

namespace Spelling

/-- An exponent with its mark and its sign. -/
def exponentText (e : Int) : List Char :=
  'e' :: (if e < 0 then '-' else '+') :: Nat.toDigits 10 e.natAbs

def text (s : Spelling) : List Char :=
  s.whole ++ (s.fraction.elim [] ('.' :: ·) ++ s.exponent.elim [] exponentText)

/-- The numeral that is written, behind its sign. -/
def numeral (s : Spelling) (negative : Bool) : Numeral where
  negative := negative
  whole := digitValues s.whole
  fraction := s.fraction.map digitValues
  exponent := s.exponent

/-- The number of all digits. -/
def significand (s : Spelling) : Nat := Nat.ofDigitChars 10 (s.whole ++ s.fraction.getD []) 0

/-- The power of ten that the digits are multiplied by. -/
def power (s : Spelling) : Int := s.exponent.getD 0 - (s.fraction.getD []).length

/-- Digits in front of a point and behind it, and no zero that leads. -/
structure Valid (s : Spelling) : Prop where
  whole : Digits s.whole
  leading : s.whole.head? = some '0' → s.whole.length = 1
  fraction : ∀ ds, s.fraction = some ds → Digits ds

variable {s : Spelling} {rest : List Char}

theorem head?_isDigit_of_delimited (h : Token.Delimited rest) {c : Char}
    (hc : rest.head? = some c) : c.isDigit = false ∧ c ≠ '.' ∧ (c == 'e' || c == 'E') = false := by
  rw [Token.Delimited, hc, Option.all_some, Token.endsNumeral] at h
  simp_all

/-- An exponent with its mark stands in front of a text. -/
theorem exponentPart_append (exponent : Option Int) (hrest : Token.Delimited rest) :
    Token.exponentPart (exponent.elim [] exponentText ++ rest) = some (exponent, rest) := by
  have hdigit : ∀ c, rest.head? = some c → c.isDigit = false :=
    fun c hc ↦ (head?_isDigit_of_delimited hrest hc).1
  cases exponent with
  | none =>
    cases rest with
    | nil => rfl
    | cons c rest =>
      have hmark := (head?_isDigit_of_delimited hrest rfl).2.2
      simp [Token.exponentPart, hmark]
  | some e =>
    have hvalue : (digitValues (Nat.toDigits 10 e.natAbs)).foldl (fun n d ↦ 10 * n + d) 0 =
        e.natAbs := by
      rw [digitValues, List.foldl_map]
      exact Nat.ofDigitChars_ten_toDigits
    have hdigits := Token.someDigits_append (digits_toDigits e.natAbs) hdigit
    have hmark : ('e' == 'e' || 'e' == 'E') = true := by decide
    simp only [Option.elim_some, exponentText, List.cons_append, Token.exponentPart, hmark,
      if_true]
    split
    next hsign =>
      have hless : -(e.natAbs : Int) = e := by omega
      simp only [Token.exponentSign, hdigits, Option.bind_eq_bind, Option.bind_some, hvalue,
        if_true, hless]
      rfl
    next hsign =>
      have hmore : (e.natAbs : Int) = e := by omega
      simp only [Token.exponentSign, hdigits, Option.bind_eq_bind, Option.bind_some, hvalue,
        Bool.false_eq_true, if_false, hmore]
      rfl

/-- What stands behind the digits of a numeral is neither a digit nor a point. -/
theorem head?_exponent_append (exponent : Option Int) (hrest : Token.Delimited rest) {c : Char}
    (hc : (exponent.elim [] exponentText ++ rest).head? = some c) :
    c.isDigit = false ∧ c ≠ '.' := by
  cases exponent with
  | none =>
    obtain ⟨hdigit, hpoint, -⟩ := head?_isDigit_of_delimited hrest hc
    exact ⟨hdigit, hpoint⟩
  | some e =>
    cases hc
    decide

/-- A point with digits stands in front of a text that does not go on with it. -/
theorem fractionPart_append {fraction : Option (List Char)}
    (hfraction : ∀ ds, fraction = some ds → Digits ds)
    (hrest : ∀ c, rest.head? = some c → c.isDigit = false ∧ c ≠ '.') :
    Token.fractionPart (fraction.elim [] ('.' :: ·) ++ rest) =
      some (fraction.map digitValues, rest) := by
  cases fraction with
  | none =>
    cases rest with
    | nil => rfl
    | cons c rest =>
      have hpoint := (hrest c rfl).2
      simp [Token.fractionPart, hpoint]
  | some ds =>
    have hdigits := Token.someDigits_append (hfraction ds rfl) fun c hc ↦ (hrest c hc).1
    simp [Token.fractionPart, hdigits]

/-- The digits in front of a point, of which a zero stands alone. -/
theorem Valid.wholePart_append (h : s.Valid)
    (hrest : ∀ c, rest.head? = some c → c.isDigit = false) :
    Token.wholePart (s.whole ++ rest) = some (digitValues s.whole, rest) := by
  have halone : ¬((digitValues s.whole).head? = some 0 ∧ 1 < (digitValues s.whole).length) := by
    rintro ⟨hzero, hmore⟩
    rw [digitValues, List.head?_map, Option.map_eq_some_iff] at hzero
    obtain ⟨c, hc, hvalue⟩ := hzero
    have hdigit := h.whole.isDigit c (List.mem_of_head? hc)
    have hchar : c = '0' := by
      have hleast := (Char.isDigit_iff_toNat.1 hdigit).1
      have hcode : c.toNat = '0'.toNat := by omega
      rw [← Char.ofNat_toNat c, hcode]
      rfl
    have hlength := h.leading (hchar ▸ hc)
    rw [digitValues, List.length_map] at hmore
    omega
  simp only [Token.wholePart, Token.someDigits_append h.whole hrest, Option.bind_eq_bind,
    Option.bind_some]
  exact if_neg (by simpa using halone)

/-- A numeral is read up to the character that ends it. -/
theorem Valid.numeral_text (h : s.Valid) (negative : Bool) (hrest : Token.Delimited rest) :
    Token.numeral negative (s.text ++ rest) = some (s.numeral negative, rest) := by
  have hbehind := fun c ↦ head?_exponent_append (c := c) s.exponent hrest
  have hfraction := fractionPart_append h.fraction hbehind
  have hpoint : ∀ c, (s.fraction.elim [] ('.' :: ·) ++
      (s.exponent.elim [] exponentText ++ rest)).head? = some c → c.isDigit = false := by
    intro c hc
    cases hs : s.fraction with
    | none =>
      rw [hs] at hc
      exact (hbehind c hc).1
    | some ds =>
      rw [hs] at hc
      cases hc
      decide
  have hwhole := h.wholePart_append hpoint
  rw [text, List.append_assoc, List.append_assoc, Token.numeral, hwhole]
  simp only [Option.bind_eq_bind, Option.bind_some, hfraction,
    exponentPart_append s.exponent hrest]
  rfl

/-- A text that begins with a digit begins with a numeral. -/
theorem next_of_isDigit {c : Char} (hc : c.isDigit = true) (cs : List Char) :
    Token.next (c :: cs) =
      (Token.numeral false (c :: cs)).map fun part ↦ (.number part.1, part.2) := by
  unfold Token.next
  split <;> simp_all [Char.isDigit]

theorem isSpace_of_isDigit {c : Char} (hc : c.isDigit = true) : Token.isSpace c = false := by
  cases hspace : Token.isSpace c with
  | false => rfl
  | true =>
    simp only [Token.isSpace, Bool.or_eq_true, beq_iff_eq] at hspace
    obtain ((rfl | rfl) | rfl) | rfl := hspace <;> simp [Char.isDigit] at hc

/-- A numeral without a sign. -/
theorem Valid.writes (h : s.Valid) : Token.Writes s.text [.number (s.numeral false)] := by
  intro rest more hrest hmore
  have hnumeral := h.numeral_text false hrest
  cases hwhole : s.whole with
  | nil => exact absurd hwhole h.whole.ne_nil
  | cons c cs =>
    have hdigit : c.isDigit = true := h.whole.isDigit c (hwhole ▸ List.mem_cons_self)
    have htext : ∃ behind, s.text = c :: behind := ⟨_, by rw [text, hwhole, List.cons_append]⟩
    obtain ⟨behind, htext⟩ := htext
    rw [htext, List.cons_append] at hnumeral ⊢
    refine hmore.cons ?_ (isSpace_of_isDigit hdigit) (by simp)
    rw [next_of_isDigit hdigit, hnumeral]
    rfl

/-- A numeral behind its sign. -/
theorem Valid.writes_neg (h : s.Valid) :
    Token.Writes ('-' :: s.text) [.number (s.numeral true)] := by
  intro rest more hrest hmore
  have hnext : Token.next ('-' :: (s.text ++ rest)) = some (.number (s.numeral true), rest) := by
    rw [Token.next, h.numeral_text true hrest]
    rfl
  exact hmore.cons hnext rfl (by simp)

/-! ## Values of spellings -/

/-- The parts of a numeral whose digits fit sixty-four bits. -/
theorem parts_numeral (h : s.significand < UInt64.size) (negative : Bool) :
    (s.numeral negative).parts = (s.significand, s.power) := by
  have hfraction : (s.fraction.map digitValues).getD [] = digitValues (s.fraction.getD []) := by
    cases s.fraction <;> rfl
  rw [significand, Nat.ofDigitChars_append] at h
  have hwhole := Nat.lt_of_le_of_lt (le_ofDigitChars (s.fraction.getD []) _) h
  simp only [Numeral.parts, numeral, hfraction, Numeral.accumulate_digitValues hwhole,
    Numeral.accumulate_digitValues h, significand, Nat.ofDigitChars_append, power]
  simp [digitValues]
  omega

/-- A number that is written with its digits alone. -/
def ofNat (n : Nat) : Spelling := ⟨Nat.toDigits 10 n, none, none⟩

theorem valid_ofNat (n : Nat) : (ofNat n).Valid where
  whole := digits_toDigits n
  leading hzero := by
    rcases Nat.eq_zero_or_pos n with rfl | hn
    · rfl
    · exact absurd hzero (head?_toDigits_ne hn)
  fraction := by
    rintro ds ⟨⟩

theorem toNat?_ofNat (n : Nat) : ((ofNat n).numeral false).toNat? = some n := by
  simp only [Numeral.toNat?, numeral, ofNat, digitValues, List.foldl_map, Option.map_none,
    Option.isSome_none, Bool.or_self, Bool.false_eq_true, if_false]
  exact congrArg some Nat.ofDigitChars_ten_toDigits

/-! ## Spellings of decimals -/

/-- A decimal with all of its places. -/
def positional (n : Nat) (t : Int) : Spelling :=
  let ds := Nat.toDigits 10 n
  let point := ds.length + t
  if 0 ≤ t then ⟨ds ++ List.replicate t.toNat '0', some ['0'], none⟩
  else if 0 < point then ⟨ds.take point.toNat, some (ds.drop point.toNat), none⟩
  else ⟨['0'], some (List.replicate (-point).toNat '0' ++ ds), none⟩

/-- A decimal with one digit in front of the point. -/
def scientific (n : Nat) (exponent : Int) : Spelling :=
  let ds := Nat.toDigits 10 n
  ⟨ds.take 1, if (ds.drop 1).isEmpty then none else some (ds.drop 1), some exponent⟩

theorem toList_pushn_zero (n : Nat) : ("".pushn '0' n).toList = List.replicate n '0' := by
  rw [String.pushn_eq_repeat_push]
  induction n with
  | zero => rfl
  | succ n ih => rw [Nat.repeat, String.toList_push, ih, ← List.replicate_succ']

theorem length_toString (n : Nat) : (toString n).length = (Nat.toDigits 10 n).length := by
  rw [← String.length_toList, Nat.toString_eq_repr, Nat.toList_repr]

theorem toList_positional (n : Nat) (t : Int) :
    (Settings.numberStyle.positional (toString n) t).toList = (positional n t).text := by
  unfold DecimalStyle.positional positional
  simp only [length_toString]
  split
  next => simp [toList_pushn_zero, text, Settings.numberStyle]
  next =>
    split
    next => simp [text]
    next => simp [toList_pushn_zero, text]

theorem toList_scientific (n : Nat) (exponent : Int) :
    (DecimalStyle.scientific (toString n) exponent).toList = (scientific n exponent).text := by
  have hexponent : (if exponent < 0 then "e-" else "e+").toList ++
      (toString exponent.natAbs).toList = exponentText exponent := by
    unfold exponentText
    split <;> simp
  have hempty : (String.ofList ((toString n).toList.drop 1)).isEmpty =
      ((Nat.toDigits 10 n).drop 1).isEmpty := by
    rw [Nat.toString_eq_repr, Nat.toList_repr]
    cases (Nat.toDigits 10 n).drop 1 <;> simp
  simp only [DecimalStyle.scientific, scientific, hempty, text, String.toList_append,
    List.append_assoc, hexponent]
  split <;> simp

/-- The parts of a decimal with all of its places. Behind a whole number stands the zero that
follows the point. -/
def placed (n : Nat) (t : Int) : Nat × Int :=
  if 0 ≤ t then (n * Nat.pow 10 (t.toNat + 1), -1) else (n, t)

theorem parts_positional (n : Nat) (t : Int) :
    ((positional n t).significand, (positional n t).power) = placed n t := by
  unfold positional placed significand power
  simp only
  split
  next =>
    simp only [Option.getD_some, Nat.ofDigitChars_append, Nat.ofDigitChars_ten_toDigits,
      Nat.ofDigitChars_replicate_zero, Nat.ofDigitChars_cons, Nat.ofDigitChars_nil]
    rw [Nat.pow_eq, Nat.pow_succ, Nat.mul_comm, Nat.mul_comm _ n, Nat.mul_assoc]
    rfl
  next =>
    split
    next =>
      simp
      omega
    next =>
      simp [Nat.ofDigitChars_append, Nat.ofDigitChars_cons]
      omega

theorem parts_scientific (n : Nat) (exponent : Int) :
    ((scientific n exponent).significand, (scientific n exponent).power) =
      (n, exponent - ((Nat.toDigits 10 n).length - 1)) := by
  have hfraction : (scientific n exponent).fraction.getD [] = (Nat.toDigits 10 n).drop 1 := by
    unfold scientific
    simp only
    split
    next hnone => rw [List.isEmpty_iff.1 hnone, Option.getD_none]
    next => rw [Option.getD_some]
  have hpos : 0 < (Nat.toDigits 10 n).length := Nat.length_toDigits_pos
  rw [significand, power, hfraction, scientific, List.take_append_drop,
    Nat.ofDigitChars_ten_toDigits, List.length_drop, Option.getD_some]
  congr 1
  omega

/-- What is taken from the front of a positive number does not begin with a zero. -/
theorem head?_take_toDigits_ne {n k : Nat} (hn : 0 < n) :
    ((Nat.toDigits 10 n).take k).head? ≠ some '0' := by
  rw [List.head?_take]
  split
  next => simp
  next => exact head?_toDigits_ne hn

theorem valid_positional {n : Nat} (hn : 0 < n) (t : Int) : (positional n t).Valid := by
  obtain ⟨hsome, hdigit⟩ := digits_toDigits n
  have hlength : 0 < (Nat.toDigits 10 n).length := Nat.length_toDigits_pos
  have hzeros : ∀ k, ∀ c ∈ List.replicate k '0', c.isDigit = true := by
    intro k c hc
    rw [List.eq_of_mem_replicate hc]
    rfl
  unfold positional
  simp only
  split
  next =>
    refine ⟨⟨by simp, ?_⟩, fun hzero ↦ ?_, ?_⟩
    · exact List.forall_mem_append.2 ⟨hdigit, hzeros _⟩
    · rw [head?_toDigits_append] at hzero
      exact absurd hzero (head?_toDigits_ne hn)
    · rintro ds ⟨⟩
      exact digits_zero
  next =>
    split
    next =>
      refine ⟨⟨?_, ?_⟩, fun hzero ↦ absurd hzero (head?_take_toDigits_ne hn), ?_⟩
      · rw [ne_eq, List.take_eq_nil_iff, not_or]
        exact ⟨by omega, hsome⟩
      · exact fun c hc ↦ hdigit c (List.mem_of_mem_take hc)
      · rintro ds ⟨⟩
        refine ⟨?_, fun c hc ↦ hdigit c (List.mem_of_mem_drop hc)⟩
        rw [ne_eq, List.drop_eq_nil_iff]
        omega
    next =>
      refine ⟨digits_zero, fun _ ↦ rfl, ?_⟩
      rintro ds ⟨⟩
      exact ⟨by simp, List.forall_mem_append.2 ⟨hzeros _, hdigit⟩⟩

theorem valid_positional_zero : (positional 0 0).Valid where
  whole := digits_zero
  leading _ := rfl
  fraction := by
    rintro ds ⟨⟩
    exact digits_zero

theorem valid_scientific {n : Nat} (hn : 0 < n) (exponent : Int) :
    (scientific n exponent).Valid := by
  obtain ⟨hsome, hdigit⟩ := digits_toDigits n
  refine ⟨⟨?_, ?_⟩, fun hzero ↦ absurd hzero (head?_take_toDigits_ne hn), ?_⟩
  · rw [scientific, ne_eq, List.take_eq_nil_iff, not_or]
    exact ⟨Nat.one_ne_zero, hsome⟩
  · exact fun c hc ↦ hdigit c (List.mem_of_mem_take hc)
  · intro ds hds
    simp only [scientific] at hds
    split at hds
    next => cases hds
    next hmore =>
      cases hds
      exact ⟨fun hnone ↦ hmore (List.isEmpty_iff.2 hnone),
        fun c hc ↦ hdigit c (List.mem_of_mem_drop hc)⟩

end Spelling

end LasFile.Json
