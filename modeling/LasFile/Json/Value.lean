import LasFile.Json.Token

/-!
# Values of a settings file

Tokens are put together to values. Arrays and objects keep the order of their parts, and objects
keep keys that occur more than once.
-/

namespace LasFile.Json

inductive Value where
  | null
  | bool (value : Bool)
  | number (value : Numeral)
  | string (text : Option String)
  | array (items : List Value)
  | object (fields : List (Option String × Value))
  deriving Repr, Inhabited

namespace Value

mutual

/-- The value at the beginning of tokens. The number of tokens bounds the depth of the recursion. -/
def read : Nat → List Token → Option (Value × List Token)
  | 0, _ => none
  | fuel + 1, tokens =>
    match tokens with
    | .null :: rest => some (null, rest)
    | .bool b :: rest => some (bool b, rest)
    | .number n :: rest => some (number n, rest)
    | .string s :: rest => some (string s, rest)
    | .leftBracket :: .rightBracket :: rest => some (array [], rest)
    | .leftBracket :: rest => (readItems fuel rest).map fun (items, rest) ↦ (array items, rest)
    | .leftBrace :: .rightBrace :: rest => some (object [], rest)
    | .leftBrace :: rest => (readFields fuel rest).map fun (fields, rest) ↦ (object fields, rest)
    | _ => none

/-- One item or more up to the closing bracket. -/
def readItems : Nat → List Token → Option (List Value × List Token)
  | 0, _ => none
  | fuel + 1, tokens => do
    let (item, rest) ← read fuel tokens
    match rest with
    | .rightBracket :: rest => return ([item], rest)
    | .comma :: rest => do
      let (items, rest) ← readItems fuel rest
      return (item :: items, rest)
    | _ => none

/-- One field or more up to the closing brace. -/
def readFields : Nat → List Token → Option (List (Option String × Value) × List Token)
  | 0, _ => none
  | fuel + 1, tokens =>
    match tokens with
    | .string key :: .colon :: rest => do
      let (value, rest) ← read fuel rest
      match rest with
      | .rightBrace :: rest => return ([(key, value)], rest)
      | .comma :: rest => do
        let (fields, rest) ← readFields fuel rest
        return ((key, value) :: fields, rest)
      | _ => none
    | _ => none

end

/-- The value of a text that holds nothing else. -/
def ofText (text : String) : Option Value := do
  let tokens ← Token.ofText text
  match ← read (2 * tokens.length + 1) tokens with
  | (value, []) => some value
  | _ => none

end Value

end LasFile.Json
