import LasFile.Json.Value
import LasFile.Proofs.Json.Numerals
import Mathlib.Data.List.Forall2

/-!
# Values in texts

`Value.Spelled text v` says that a text is cut into tokens that are read as a value, in front of
whatever ends a numeral. Values are put together from their parts as they are spelled: numbers,
strings, arrays and objects with something between their parts that is cut into a comma.
-/

namespace LasFile.Json.Value

open Token

/-- Tokens that are read as a value, whatever stands behind them. -/
def Reads (tokens : List Token) (v : Value) : Prop :=
  ∀ fuel rest, 2 * tokens.length ≤ fuel → read (fuel + 1) (tokens ++ rest) = some (v, rest)

/-- Tokens that are read as the items in front of a closing bracket. -/
def ReadsItems (tokens : List Token) (items : List Value) : Prop :=
  ∀ fuel rest, 2 * tokens.length + 2 ≤ fuel →
    readItems fuel (tokens ++ .rightBracket :: rest) = some (items, rest)

/-- Tokens that are read as the fields in front of a closing brace. -/
def ReadsFields (tokens : List Token) (fields : List (Option String × Value)) : Prop :=
  ∀ fuel rest, 2 * tokens.length + 2 ≤ fuel →
    readFields fuel (tokens ++ .rightBrace :: rest) = some (fields, rest)

variable {tokens others : List Token} {v : Value}

/-! ## Tokens of values -/

theorem reads_null : Reads [.null] null := fun _ _ _ ↦ rfl

theorem reads_number (n : Numeral) : Reads [.number n] (number n) := fun _ _ _ ↦ rfl

theorem reads_string (text : Option String) : Reads [.string text] (string text) :=
  fun _ _ _ ↦ rfl

theorem reads_array_nil : Reads [.leftBracket, .rightBracket] (array []) := fun _ _ _ ↦ rfl

theorem Reads.items (h : Reads tokens v) : ReadsItems tokens [v] := by
  intro fuel rest hfuel
  obtain ⟨fuel, rfl⟩ : ∃ k, fuel = k + 2 := ⟨fuel - 2, by omega⟩
  rw [readItems, h fuel _ (by omega)]
  rfl

theorem Reads.cons_items {items : List Value} (h : Reads tokens v)
    (hrest : ReadsItems others items) : ReadsItems (tokens ++ .comma :: others) (v :: items) := by
  intro fuel rest hfuel
  rw [List.length_append, List.length_cons] at hfuel
  obtain ⟨fuel, rfl⟩ : ∃ k, fuel = k + 2 := ⟨fuel - 2, by omega⟩
  rw [readItems, List.append_assoc, h fuel _ (by omega)]
  simp only [List.cons_append, Option.bind_eq_bind, Option.bind_some,
    hrest (fuel + 1) rest (by omega)]
  rfl

/-- Items do not begin with the bracket that ends them. -/
theorem ReadsItems.array {items : List Value} (h : ReadsItems tokens items) :
    Reads (.leftBracket :: (tokens ++ [.rightBracket])) (array items) := by
  intro fuel rest hfuel
  rw [List.length_cons, List.length_append, List.length_singleton] at hfuel
  have hitems := h fuel rest (by omega)
  obtain ⟨fuel, rfl⟩ : ∃ k, fuel = k + 2 := ⟨fuel - 2, by omega⟩
  have hopen : ∀ more, tokens ++ .rightBracket :: rest = .rightBracket :: more → False := by
    intro more hclosed
    rw [hclosed] at hitems
    cases hitems
  rw [List.cons_append, List.append_assoc, List.singleton_append, read, hitems]
  · rfl
  · exact fun more hclosed ↦ hopen more hclosed

theorem Reads.fields (h : Reads tokens v) (key : Option String) :
    ReadsFields (.string key :: .colon :: tokens) [(key, v)] := by
  intro fuel rest hfuel
  rw [List.length_cons, List.length_cons] at hfuel
  obtain ⟨fuel, rfl⟩ : ∃ k, fuel = k + 2 := ⟨fuel - 2, by omega⟩
  rw [List.cons_append, List.cons_append, readFields, h fuel _ (by omega)]
  rfl

theorem Reads.cons_fields {fields : List (Option String × Value)} (h : Reads tokens v)
    (key : Option String) (hrest : ReadsFields others fields) :
    ReadsFields (.string key :: .colon :: (tokens ++ .comma :: others)) ((key, v) :: fields) := by
  intro fuel rest hfuel
  simp only [List.length_append, List.length_cons] at hfuel
  obtain ⟨fuel, rfl⟩ : ∃ k, fuel = k + 2 := ⟨fuel - 2, by omega⟩
  rw [List.cons_append, List.cons_append, List.append_assoc, readFields, h fuel _ (by omega)]
  simp only [List.cons_append, Option.bind_eq_bind, Option.bind_some,
    hrest (fuel + 1) rest (by omega)]
  rfl

/-- Fields do not begin with the brace that ends them. -/
theorem ReadsFields.object {fields : List (Option String × Value)} (h : ReadsFields tokens fields) :
    Reads (.leftBrace :: (tokens ++ [.rightBrace])) (object fields) := by
  intro fuel rest hfuel
  rw [List.length_cons, List.length_append, List.length_singleton] at hfuel
  have hfields := h fuel rest (by omega)
  obtain ⟨fuel, rfl⟩ : ∃ k, fuel = k + 1 := ⟨fuel - 1, by omega⟩
  have hopen : ∀ more, tokens ++ .rightBrace :: rest = .rightBrace :: more → False := by
    intro more hclosed
    rw [hclosed] at hfields
    cases hfields
  rw [List.cons_append, List.append_assoc, List.singleton_append, read, hfields]
  · rfl
  · exact fun more hclosed ↦ hopen more hclosed

/-! ## Texts of values -/

/-- A text that is read as a value. -/
def Spelled (text : List Char) (v : Value) : Prop :=
  ∃ tokens, Token.Writes text tokens ∧ Reads tokens v

/-- All of a text is read. -/
theorem Spelled.ofText {s : String} (h : Spelled s.toList v) : Value.ofText s = some v := by
  obtain ⟨tokens, hwrites, hreads⟩ := h
  have hcuts := hwrites [] [] rfl cuts_nil
  rw [List.append_nil, List.append_nil] at hcuts
  have hread := hreads (2 * tokens.length) [] (Nat.le_refl _)
  rw [List.append_nil] at hread
  simp only [Value.ofText, hcuts.ofText, Option.bind_eq_bind, Option.bind_some, hread]

theorem spelled_null : Spelled "null".toList null := ⟨_, closed_null.writes, reads_null⟩

theorem spelled_renderText (s : String) :
    Spelled (Settings.renderText s).toList (string (some s)) :=
  ⟨_, (closed_renderText s).writes, reads_string _⟩

theorem spelled_of_valid {s : Spelling} (h : s.Valid) :
    Spelled s.text (number (s.numeral false)) := ⟨_, h.writes, reads_number _⟩

theorem spelled_neg_of_valid {s : Spelling} (h : s.Valid) :
    Spelled ('-' :: s.text) (number (s.numeral true)) := ⟨_, h.writes_neg, reads_number _⟩

/-- A text between two parts. It ends a numeral and is cut into a comma. -/
structure Separates (c : Char) (sep : List Char) : Prop where
  closed : Token.Closed (c :: sep) [.comma]
  ends : Token.endsNumeral c = true

variable {c : Char} {sep : List Char}

/-- Texts with a separator between them are cut into tokens that are read part by part, if a part
can be read alone and in front of others. -/
theorem exists_joined {α : Type} {one : List Token → α → Prop} {many : List Token → List α → Prop}
    {texts : List (List Char)} {parts : List α}
    (h : List.Forall₂ (fun text a ↦ ∃ tokens, Token.Writes text tokens ∧ one tokens a) texts parts)
    (hsome : parts ≠ []) (hsep : Separates c sep)
    (hlast : ∀ tokens a, one tokens a → many tokens [a])
    (hfirst : ∀ tokens others a as, one tokens a → many others as →
      many (tokens ++ .comma :: others) (a :: as)) :
    ∃ tokens, Token.Writes ((c :: sep).intercalate texts) tokens ∧ many tokens parts := by
  induction h with
  | nil => exact absurd rfl hsome
  | @cons text a texts parts htext hrest ih =>
    obtain ⟨tokens, hwrites, hreads⟩ := htext
    cases hrest with
    | nil => exact ⟨tokens, by simpa using hwrites, hlast _ _ hreads⟩
    | @cons next b texts parts hnext hmore =>
      obtain ⟨others, hothers, hparts⟩ := ih (List.cons_ne_nil _ _)
      refine ⟨tokens ++ .comma :: others, ?_, hfirst _ _ _ _ hreads hparts⟩
      have hclosed := (hwrites.append hsep.closed hsep.ends).append_writes hothers
      rw [List.append_assoc] at hclosed
      rw [List.intercalate_cons_cons]
      simpa using hclosed

/-- Texts of values with a separator between them. -/
theorem exists_readsItems (hsep : Separates c sep) {texts : List (List Char)} {values : List Value}
    (h : List.Forall₂ Spelled texts values) (hsome : values ≠ []) :
    ∃ tokens, Token.Writes ((c :: sep).intercalate texts) tokens ∧ ReadsItems tokens values := by
  have hparts : List.Forall₂ (fun text v ↦ ∃ tokens, Token.Writes text tokens ∧ Reads tokens v)
      texts values := h
  exact exists_joined hparts hsome hsep (fun _ _ ↦ Reads.items) fun _ _ _ _ ↦ Reads.cons_items

/-- An array with its items on lines of their own. -/
theorem spelled_renderArray {items : List String} {values : List Value}
    (h : List.Forall₂ Spelled (items.map String.toList) values) :
    Spelled (Settings.renderArray items).toList (array values) := by
  cases items with
  | nil =>
    cases h
    have hclosed : Token.Closed ['[', ']'] [.leftBracket, .rightBracket] :=
      closed_mark (fun _ ↦ rfl) rfl (closed_mark (fun _ ↦ rfl) rfl closed_nil)
    exact ⟨_, hclosed.writes, reads_array_nil⟩
  | cons item items =>
    have hsome : values ≠ [] := by
      rintro rfl
      cases h
    have hsep : Separates ',' ['\n', ' ', ' ', ' ', ' '] :=
      ⟨closed_mark (fun _ ↦ rfl) rfl (closed_blanks rfl), rfl⟩
    obtain ⟨tokens, hwrites, hreads⟩ := exists_readsItems hsep h hsome
    have hopen : Token.Closed ['[', '\n', ' ', ' ', ' ', ' '] [.leftBracket] :=
      closed_mark (fun _ ↦ rfl) rfl (closed_blanks rfl)
    have hclose : Token.Closed ['\n', ' ', ' ', ']'] [.rightBracket] :=
      closed_blank rfl (closed_blank rfl (closed_blank rfl
        (closed_mark (fun _ ↦ rfl) rfl closed_nil)))
    have hwhole := hopen.append (hwrites.append hclose rfl)
    have htext : (Settings.renderArray (item :: items)).toList =
        ['[', '\n', ' ', ' ', ' ', ' '] ++ ([',', '\n', ' ', ' ', ' ', ' '].intercalate
          ((item :: items).map String.toList) ++ ['\n', ' ', ' ', ']']) := by
      simp [Settings.renderArray]
    rw [htext]
    exact ⟨_, hwhole.writes, hreads.array⟩

/-! ## Objects -/

/-- A text that is read as a key and its value. -/
def SpelledField (text : List Char) (field : Option String × Value) : Prop :=
  ∃ tokens, Token.Writes text (.string field.1 :: .colon :: tokens) ∧ Reads tokens field.2

/-- Texts of fields with a separator between them. -/
theorem exists_readsFields (hsep : Separates c sep) {texts : List (List Char)}
    {fields : List (Option String × Value)} (h : List.Forall₂ SpelledField texts fields)
    (hsome : fields ≠ []) : ∃ tokens,
      Token.Writes ((c :: sep).intercalate texts) tokens ∧ ReadsFields tokens fields := by
  have hparts : List.Forall₂ (fun text field ↦ ∃ tokens, Token.Writes text tokens ∧
      ∃ rest, tokens = .string field.1 :: .colon :: rest ∧ Reads rest field.2) texts fields :=
    h.imp fun _ _ ⟨rest, hwrites, hreads⟩ ↦ ⟨_, hwrites, rest, rfl, hreads⟩
  refine exists_joined hparts hsome hsep ?_ ?_
  · rintro _ field ⟨rest, rfl, hreads⟩
    exact hreads.fields field.1
  · rintro _ others field fields ⟨rest, rfl, hreads⟩ hothers
    exact hreads.cons_fields field.1 hothers

/-- A name in quotation marks and the text of a value. -/
theorem spelledField_of_spelled {name text : String}
    (hname : Settings.renderText name = "\"" ++ name ++ "\"") (h : Spelled text.toList v) :
    SpelledField ("  \"" ++ name ++ "\": " ++ text).toList (some name, v) := by
  obtain ⟨tokens, hwrites, hreads⟩ := h
  have hblanks : Token.Closed [' ', ' '] [] := closed_blanks rfl
  have hcolon : Token.Closed [':', ' '] [.colon] :=
    closed_mark (fun _ ↦ rfl) rfl (closed_blanks rfl)
  have hwhole := (hblanks.append ((closed_renderText name).append hcolon)).append_writes hwrites
  refine ⟨tokens, ?_, hreads⟩
  have htext : ("  \"" ++ name ++ "\": " ++ text).toList =
      [' ', ' '] ++ ((Settings.renderText name).toList ++ [':', ' ']) ++ text.toList := by
    rw [hname]
    simp
  rw [htext]
  exact hwhole

/-- An object with its fields on lines of their own. -/
theorem spelled_object {texts : List (List Char)} {fields : List (Option String × Value)}
    (h : List.Forall₂ SpelledField texts fields) (hsome : fields ≠ []) :
    Spelled (['\x7b', '\n'] ++ ([',', '\n'].intercalate texts ++ ['\n', '\x7d']))
      (object fields) := by
  have hsep : Separates ',' ['\n'] := ⟨closed_mark (fun _ ↦ rfl) rfl (closed_blanks rfl), rfl⟩
  obtain ⟨tokens, hwrites, hreads⟩ := exists_readsFields hsep h hsome
  have hopen : Token.Closed ['\x7b', '\n'] [.leftBrace] :=
    closed_mark (fun _ ↦ rfl) rfl (closed_blanks rfl)
  have hclose : Token.Closed ['\n', '\x7d'] [.rightBrace] :=
    closed_blank rfl (closed_mark (fun _ ↦ rfl) rfl closed_nil)
  exact ⟨_, (hopen.append (hwrites.append hclose rfl)).writes, hreads.object⟩

end LasFile.Json.Value
