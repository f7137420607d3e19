import LasFile.Json.Token
import LasFile.Settings.Text

/-!
# Texts cut into tokens

`Token.Closed text tokens` says that a text is cut into tokens in front of whatever can be cut
itself. A numeral goes on as long as it can, so that it is cut off only in front of a character that
ends it; this is `Token.Writes`. A string is read back with all of its characters, whichever of them
had to be escaped.
-/

namespace LasFile.Json.Token

/-- A text is cut into some tokens as soon as there is fuel for them. -/
structure Cuts (cs : List Char) (tokens : List Token) : Prop where
  length_le : tokens.length ≤ cs.length
  tokenize_eq : ∀ fuel, tokens.length < fuel → tokenize fuel cs = some tokens

/-- Whether a character ends the numeral in front of it. -/
def endsNumeral (c : Char) : Bool := !(c.isDigit || c == '.' || c == 'e' || c == 'E')

/-- No numeral goes on into this text. -/
def Delimited (cs : List Char) : Prop := cs.head?.all endsNumeral = true

/-- A text that is cut into tokens in front of any text. -/
def Closed (text : List Char) (tokens : List Token) : Prop :=
  ∀ rest more, Cuts rest more → Cuts (text ++ rest) (tokens ++ more)

/-- A text that is cut into tokens in front of any text that ends a numeral. -/
def Writes (text : List Char) (tokens : List Token) : Prop :=
  ∀ rest more, Delimited rest → Cuts rest more → Cuts (text ++ rest) (tokens ++ more)

variable {cs text other rest : List Char} {tokens others : List Token} {c : Char} {token : Token}

/-! ## Single tokens -/

theorem cuts_nil : Cuts [] [] where
  length_le := Nat.le_refl 0
  tokenize_eq fuel hfuel := by
    cases fuel with
    | zero => exact absurd hfuel (Nat.not_lt_zero _)
    | succ fuel => rfl

/-- All of a text is cut. -/
theorem Cuts.ofText {s : String} (h : Cuts s.toList tokens) : Token.ofText s = some tokens :=
  h.tokenize_eq _ (Nat.lt_succ_of_le (String.length_toList ▸ h.length_le))

theorem Cuts.blank (h : Cuts cs tokens) (hc : isSpace c = true) : Cuts (c :: cs) tokens where
  length_le := Nat.le_succ_of_le h.length_le
  tokenize_eq fuel hfuel := by
    cases fuel with
    | zero => exact absurd hfuel (Nat.not_lt_zero _)
    | succ fuel =>
      rw [← h.tokenize_eq _ hfuel, tokenize, tokenize, List.dropWhile_cons_of_pos hc]

theorem Cuts.cons (h : Cuts rest tokens) (hnext : next (c :: cs) = some (token, rest))
    (hc : isSpace c = false) (hrest : rest.length ≤ cs.length) :
    Cuts (c :: cs) (token :: tokens) where
  length_le := Nat.succ_le_succ (Nat.le_trans h.length_le hrest)
  tokenize_eq fuel hfuel := by
    cases fuel with
    | zero => exact absurd hfuel (Nat.not_lt_zero _)
    | succ fuel =>
      rw [tokenize, List.dropWhile_cons_of_neg (by simp [hc])]
      simp only [hnext, h.tokenize_eq fuel (Nat.lt_of_succ_lt_succ hfuel), Option.bind_eq_bind,
        Option.bind_some]
      rfl

/-! ## Texts in sequence -/

theorem Closed.writes (h : Closed text tokens) : Writes text tokens :=
  fun rest more _ hrest ↦ h rest more hrest

theorem closed_nil : Closed [] [] := fun _ _ hrest ↦ hrest

theorem Closed.append (h : Closed text tokens) (hother : Closed other others) :
    Closed (text ++ other) (tokens ++ others) := by
  intro rest more hrest
  rw [List.append_assoc, List.append_assoc]
  exact h _ _ (hother rest more hrest)

theorem Closed.append_writes (h : Closed text tokens) (hother : Writes other others) :
    Writes (text ++ other) (tokens ++ others) := by
  intro rest more hdelimited hrest
  rw [List.append_assoc, List.append_assoc]
  exact h _ _ (hother rest more hdelimited hrest)

/-- A text that begins with the end of a numeral closes the one in front of it. -/
theorem Writes.append (h : Writes text tokens) (hother : Closed (c :: other) others)
    (hc : endsNumeral c = true) : Closed (text ++ c :: other) (tokens ++ others) := by
  intro rest more hrest
  rw [List.append_assoc, List.append_assoc]
  exact h _ _ hc (hother rest more hrest)

theorem closed_blank (hc : isSpace c = true) (h : Closed text tokens) :
    Closed (c :: text) tokens := fun rest more hrest ↦ (h rest more hrest).blank hc

/-- Blanks are no tokens. -/
theorem closed_blanks {blanks : List Char} (hblanks : blanks.all isSpace = true) :
    Closed blanks [] := by
  induction blanks with
  | nil => exact closed_nil
  | cons c blanks ih =>
    rw [List.all_cons, Bool.and_eq_true] at hblanks
    exact closed_blank hblanks.1 (ih hblanks.2)

/-- A token of one character. -/
theorem closed_mark (hnext : ∀ rest, next (c :: rest) = some (token, rest))
    (hc : isSpace c = false) (h : Closed text tokens) : Closed (c :: text) (token :: tokens) :=
  fun rest more hrest ↦ (h rest more hrest).cons (hnext _) hc (Nat.le_refl _)

theorem closed_null : Closed "null".toList [null] := by
  intro rest more hrest
  have hlength : rest.length ≤ ('u' :: 'l' :: 'l' :: rest).length := by
    simp only [List.length_cons]
    omega
  exact hrest.cons rfl (by decide : isSpace 'n' = false) hlength

/-! ## Strings -/

/-- A digit of a code below thirty-two is read back. -/
theorem hexDigit?_hexDigit : ∀ n < 16, hexDigit? (Settings.hexDigit n) = some n := by decide

/-- A control character is read by its code. -/
theorem escape_control {n : Nat} (hn : n < 32) (cs : List Char) :
    escape ('u' :: '0' :: '0' :: Settings.hexDigit (n / 16) :: Settings.hexDigit (n % 16) :: cs) =
      some (.character (.ofNat n), cs) := by
  have hzero : hexDigit? '0' = some 0 := by decide
  have hhigh := hexDigit?_hexDigit (n / 16) (by omega)
  have hlow := hexDigit?_hexDigit (n % 16) (by omega)
  have hcode : ((0 * 16 + 0) * 16 + n / 16) * 16 + n % 16 = n := by omega
  have hunit : unitOf n = .character (.ofNat n) := if_neg (by simp; omega)
  simp only [escape, hzero, hhigh, hlow, Option.bind_eq_bind, Option.bind_some, hcode, hunit]
  rfl

/-- What stands for a character inside a string is read as this character. -/
theorem stringUnits_escapeChar (fuel : Nat) (c : Char) (cs : List Char) :
    stringUnits (fuel + 1) (Settings.escapeChar c ++ cs) =
      (stringUnits fuel cs).map fun part ↦ (.character c :: part.1, part.2) := by
  unfold Settings.escapeChar
  split
  case h_8 =>
    split
    next hcontrol =>
      have hcode : c.toNat < 32 := hcontrol
      simp only [List.cons_append, List.nil_append, stringUnits, escape_control hcode,
        Char.ofNat_toNat, Option.bind_eq_bind, Option.bind_some]
      cases stringUnits fuel cs <;> rfl
    next hprinted =>
      simp only [List.cons_append, List.nil_append, stringUnits, if_neg hprinted]
      cases stringUnits fuel cs <;> rfl
  all_goals
    cases h : stringUnits fuel cs <;> simp [stringUnits, escape, simpleEscape?, h]

/-- A string is read up to its end. Every character takes one step. -/
theorem stringUnits_flatMap {cs : List Char} {fuel : Nat} (hfuel : cs.length < fuel)
    (rest : List Char) : stringUnits fuel (cs.flatMap Settings.escapeChar ++ '"' :: rest) =
      some (cs.map .character, rest) := by
  induction cs generalizing fuel with
  | nil =>
    cases fuel with
    | zero => exact absurd hfuel (Nat.not_lt_zero _)
    | succ fuel => rfl
  | cons c cs ih =>
    cases fuel with
    | zero => exact absurd hfuel (Nat.not_lt_zero _)
    | succ fuel =>
      rw [List.flatMap_cons, List.append_assoc, stringUnits_escapeChar,
        ih (Nat.lt_of_succ_lt_succ hfuel)]
      rfl

/-- Characters by themselves are joined to their text. -/
theorem joinUnits_map_character (cs : List Char) : joinUnits (cs.map .character) = some cs := by
  induction cs with
  | nil => rfl
  | cons c cs ih => rw [List.map_cons, joinUnits, ih, Option.map_some]

theorem one_le_length_escapeChar (c : Char) : 1 ≤ (Settings.escapeChar c).length := by
  unfold Settings.escapeChar
  split
  case h_8 => split <;> simp
  all_goals simp

theorem length_le_length_flatMap (cs : List Char) :
    cs.length ≤ (cs.flatMap Settings.escapeChar).length := by
  induction cs with
  | nil => exact Nat.le_refl 0
  | cons c cs ih =>
    have hc := one_le_length_escapeChar c
    rw [List.flatMap_cons, List.length_append, List.length_cons]
    omega

/-- A string in quotation marks is one token, and holds the string. -/
theorem closed_renderText (s : String) :
    Closed (Settings.renderText s).toList [string (some s)] := by
  intro rest more hrest
  have htext : (Settings.renderText s).toList ++ rest =
      '"' :: (s.toList.flatMap Settings.escapeChar ++ '"' :: rest) := by
    simp [Settings.renderText]
  rw [htext]
  refine hrest.cons ?_ rfl (by simp; omega)
  have hfuel : s.toList.length <
      (s.toList.flatMap Settings.escapeChar ++ '"' :: rest).length + 1 := by
    have hlength := length_le_length_flatMap s.toList
    rw [List.length_append]
    omega
  simp only [next, stringUnits_flatMap hfuel, Option.bind_eq_bind, Option.bind_some,
    joinUnits_map_character, Option.map_some, String.ofList_toList]
  rfl

end LasFile.Json.Token
