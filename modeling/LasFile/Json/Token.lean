import LasFile.Json.Numeral

/-!
# Tokens of a settings file

A text is cut into punctuation, words, numerals and strings; blanks between them are dropped. A
string may escape code units that do not form characters. Its text is then unknown, which matters
only where the text is wanted.
-/

namespace LasFile.Json

inductive Token where
  | leftBracket
  | rightBracket
  | leftBrace
  | rightBrace
  | colon
  | comma
  | null
  | bool (value : Bool)
  | number (value : Numeral)
  /-- A string with its text, if it has one. -/
  | string (text : Option String)
  deriving DecidableEq, Repr, Inhabited

namespace Token

/-- The blanks between tokens. -/
def isSpace (c : Char) : Bool := c == ' ' || c == '\n' || c == '\t' || c == '\r'

/-! ## Numerals -/

/-- The digits at the beginning of a text and what follows them. -/
def digits (cs : List Char) : List Nat × List Char :=
  let (ds, rest) := cs.span Char.isDigit
  (ds.map fun c ↦ c.toNat - '0'.toNat, rest)

/-- One digit or more. -/
def someDigits (cs : List Char) : Option (List Nat × List Char) :=
  let (ds, rest) := digits cs
  if ds.isEmpty then none else some (ds, rest)

/-- The digits of a whole number; a zero stands alone. -/
def wholePart (cs : List Char) : Option (List Nat × List Char) := do
  let (ds, rest) ← someDigits cs
  if ds.head? = some 0 && 1 < ds.length then none else some (ds, rest)

/-- A point with digits behind it, if there is a point. -/
def fractionPart (cs : List Char) : Option (Option (List Nat) × List Char) :=
  match cs with
  | '.' :: rest => do
    let (ds, rest) ← someDigits rest
    return (some ds, rest)
  | _ => some (none, cs)

/-- The sign of an exponent. -/
def exponentSign (cs : List Char) : Bool × List Char :=
  match cs with
  | '-' :: rest => (true, rest)
  | '+' :: rest => (false, rest)
  | _ => (false, cs)

/-- An exponent, if there is a mark for one. -/
def exponentPart (cs : List Char) : Option (Option Int × List Char) :=
  match cs with
  | c :: rest =>
    if c == 'e' || c == 'E' then do
      let (negative, rest) := exponentSign rest
      let (ds, rest) ← someDigits rest
      let n : Nat := ds.foldl (fun value d ↦ 10 * value + d) 0
      return (some (if negative then -(n : Int) else n), rest)
    else some (none, cs)
  | [] => some (none, cs)

/-- A numeral whose sign was read. -/
def numeral (negative : Bool) (cs : List Char) : Option (Numeral × List Char) := do
  let (whole, rest) ← wholePart cs
  let (fraction, rest) ← fractionPart rest
  let (exponent, rest) ← exponentPart rest
  return ({ negative, whole, fraction, exponent }, rest)

/-! ## Strings -/

/-- A character of a string, or a code unit that is none by itself. -/
inductive TextUnit where
  | character (c : Char)
  | surrogate (unit : Nat)
  deriving DecidableEq, Repr, Inhabited

/-- The text of units. Two surrogates in the right order form a character. -/
def joinUnits : List TextUnit → Option (List Char)
  | [] => some []
  | .character c :: rest => (joinUnits rest).map (c :: ·)
  | .surrogate high :: .surrogate low :: rest =>
    if high < 0xDC00 && 0xDC00 ≤ low then
      (joinUnits rest).map (Char.ofNat (0x10000 + (high - 0xD800) * 1024 + (low - 0xDC00)) :: ·)
    else none
  | .surrogate _ :: _ => none

/-- The value of a hexadecimal digit. -/
def hexDigit? (c : Char) : Option Nat :=
  if c.isDigit then some (c.toNat - '0'.toNat)
  else if 'a' ≤ c && c ≤ 'f' then some (c.toNat - 'a'.toNat + 10)
  else if 'A' ≤ c && c ≤ 'F' then some (c.toNat - 'A'.toNat + 10)
  else none

/-- The unit with a code. -/
def unitOf (code : Nat) : TextUnit :=
  if 0xD800 ≤ code && code < 0xE000 then .surrogate code else .character (Char.ofNat code)

/-- The characters that stand for themselves or for a control character behind a backslash. -/
def simpleEscape? (c : Char) : Option Char :=
  match c with
  | '"' => some '"'
  | '\\' => some '\\'
  | '/' => some '/'
  | 'b' => some '\x08'
  | 'f' => some '\x0c'
  | 'n' => some '\n'
  | 'r' => some '\r'
  | 't' => some '\t'
  | _ => none

/-- The unit at the beginning of what follows a backslash. -/
def escape (cs : List Char) : Option (TextUnit × List Char) :=
  match cs with
  | 'u' :: a :: b :: c :: d :: rest => do
    let a ← hexDigit? a
    let b ← hexDigit? b
    let c ← hexDigit? c
    let d ← hexDigit? d
    return (unitOf (((a * 16 + b) * 16 + c) * 16 + d), rest)
  | c :: rest => (simpleEscape? c).map fun c ↦ (.character c, rest)
  | [] => none

/-- The units up to the closing quotation mark. Control characters have to be escaped. -/
def stringUnits : Nat → List Char → Option (List TextUnit × List Char)
  | 0, _ => none
  | fuel + 1, cs =>
    match cs with
    | [] => none
    | '"' :: rest => some ([], rest)
    | '\\' :: rest => do
      let (unit, rest) ← escape rest
      let (units, rest) ← stringUnits fuel rest
      return (unit :: units, rest)
    | c :: rest =>
      if c < ' ' then none
      else do
        let (units, rest) ← stringUnits fuel rest
        return (.character c :: units, rest)

/-! ## All tokens -/

/-- The rest of a text that begins with a word. -/
def afterWord? (word : String) (cs : List Char) : Option (List Char) :=
  if word.toList.isPrefixOf cs then some (cs.drop word.length) else none

/-- The token at the beginning of a text. -/
def next (cs : List Char) : Option (Token × List Char) :=
  match cs with
  | '[' :: rest => some (leftBracket, rest)
  | ']' :: rest => some (rightBracket, rest)
  | '\x7b' :: rest => some (leftBrace, rest)
  | '\x7d' :: rest => some (rightBrace, rest)
  | ':' :: rest => some (colon, rest)
  | ',' :: rest => some (comma, rest)
  | 'n' :: _ => (afterWord? "null" cs).map (null, ·)
  | 't' :: _ => (afterWord? "true" cs).map (bool true, ·)
  | 'f' :: _ => (afterWord? "false" cs).map (bool false, ·)
  | '"' :: rest => do
    let (units, rest) ← stringUnits (rest.length + 1) rest
    return (string ((joinUnits units).map String.ofList), rest)
  | '-' :: rest => (numeral true rest).map fun (n, rest) ↦ (number n, rest)
  | _ => (numeral false cs).map fun (n, rest) ↦ (number n, rest)

/-- The tokens of a text. Every token takes a character at least. -/
def tokenize : Nat → List Char → Option (List Token)
  | 0, _ => none
  | fuel + 1, cs =>
    match cs.dropWhile isSpace with
    | [] => some []
    | c :: rest => do
      let (token, rest) ← next (c :: rest)
      let tokens ← tokenize fuel rest
      return token :: tokens

/-- The tokens of a text, none if it cannot be cut into tokens. -/
def ofText (text : String) : Option (List Token) :=
  tokenize (text.length + 1) text.toList

end Token

end LasFile.Json
