/-!
# Blank characters and letter case

Options and settings ignore blanks around a name. `Text.isBlank` is the Unicode property
White_Space. Lower case is needed of ASCII letters only: the names it is compared with are ASCII,
and the one other letter whose lower case is ASCII, the Kelvin sign, gives a letter in none of them.
-/

namespace LasFile.Text

/-- The ranges of White_Space. -/
def blankRanges : List (Nat × Nat) :=
  [(0x09, 0x0D), (0x20, 0x20), (0x85, 0x85), (0xA0, 0xA0), (0x1680, 0x1680), (0x2000, 0x200A),
    (0x2028, 0x2029), (0x202F, 0x202F), (0x205F, 0x205F), (0x3000, 0x3000)]

def isBlank (c : Char) : Bool :=
  blankRanges.any fun (low, high) ↦ low ≤ c.toNat && c.toNat ≤ high

/-- The characters without those at both ends that satisfy `p`. -/
def trimBoth (p : Char → Bool) (cs : List Char) : List Char :=
  ((cs.dropWhile p).reverse.dropWhile p).reverse

/-- The text without blanks at its ends. -/
def trim (s : String) : String := String.ofList (trimBoth isBlank s.toList)

/-- The text in lower case, without blanks at its ends. -/
def keyword (s : String) : String :=
  String.ofList ((trimBoth isBlank s.toList).map Char.toLower)

/-- The parts before and after the first occurrence of a character. -/
def splitAt? (mark : Char) (s : String) : Option (String × String) :=
  let (before, rest) := s.toList.span (· != mark)
  match rest with
  | [] => none
  | _ :: after => some (String.ofList before, String.ofList after)

end LasFile.Text
