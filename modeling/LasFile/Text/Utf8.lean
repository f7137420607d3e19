/-!
# UTF-8 with replacement

`Utf8.encode` writes characters as bytes, and `Utf8.lastBoundary` finds a place between two of them.
`Utf8.decode` reads any bytes: each maximal part that begins a sequence but cannot be continued, and
each byte that begins none, becomes one replacement character. The reader is a machine whose state
is the sequence under way.
-/

namespace LasFile.Utf8

/-- The bytes of a text. -/
def encode (cs : List Char) : List UInt8 := cs.flatMap String.utf8EncodeChar

/-- Whether a byte continues a character. -/
def isContinuation (b : UInt8) : Bool := 0x80 ≤ b && b < 0xC0

/-- Whether a place in the bytes of a text lies at one of its ends or in front of a character. -/
def isBoundary (bytes : List UInt8) (place : Nat) : Bool :=
  place == 0 ||
    match bytes[place]? with
    | some b => !isContinuation b
    | none => place == bytes.length

/-- The last boundary that does not lie behind a place. The search goes back from there. -/
def lastBoundary (bytes : List UInt8) : Nat → Nat
  | 0 => 0
  | place + 1 => if isBoundary bytes (place + 1) then place + 1 else lastBoundary bytes place

theorem lastBoundary_le (bytes : List UInt8) (place : Nat) : lastBoundary bytes place ≤ place := by
  induction place with
  | zero => exact Nat.le_refl 0
  | succ place ih =>
    rw [lastBoundary]
    split
    · exact Nat.le_refl _
    · exact Nat.le_succ_of_le ih

/-- U+FFFD. -/
def replacement : Char := '\uFFFD'

/-- A sequence of which at least one byte was read. -/
structure Started where
  /-- The code point bits read so far. -/
  code : Nat
  /-- How many continuation bytes follow the next one. -/
  left : Nat
  /-- The range of the next byte. -/
  low : UInt8
  high : UInt8
  deriving DecidableEq, Repr

/-- What a byte says at the start of a character. -/
inductive Lead where
  | character (c : Char)
  | sequence (s : Started)
  | invalid
  deriving DecidableEq, Repr

/-- The first byte of a character. The ranges of the second byte leave out overlong forms,
surrogates and code points past U+10FFFF. -/
def lead (b : UInt8) : Lead :=
  let n := b.toNat
  if n < 0x80 then .character (Char.ofNat n)
  else if n < 0xC2 then .invalid
  else if n < 0xE0 then .sequence ⟨n - 0xC0, 0, 0x80, 0xBF⟩
  else if n < 0xF0 then
    .sequence ⟨n - 0xE0, 1, if n = 0xE0 then 0xA0 else 0x80, if n = 0xED then 0x9F else 0xBF⟩
  else if n < 0xF5 then
    .sequence ⟨n - 0xF0, 2, if n = 0xF0 then 0x90 else 0x80, if n = 0xF4 then 0x8F else 0xBF⟩
  else .invalid

/-- The characters completed by a byte at the start of a character, and the state after it. -/
def begin (b : UInt8) : List Char × Option Started :=
  match lead b with
  | .character c => ([c], none)
  | .sequence s => ([], some s)
  | .invalid => ([replacement], none)

/-- The characters completed by the next byte, and the state after it. -/
def advance : Option Started → UInt8 → List Char × Option Started
  | none, b => begin b
  | some s, b =>
    if s.low ≤ b && b ≤ s.high then
      let code := s.code * 64 + b.toNat % 64
      match s.left with
      | 0 => ([Char.ofNat code], none)
      | left + 1 => ([], some ⟨code, left, 0x80, 0xBF⟩)
    else
      let (cs, next) := begin b
      (replacement :: cs, next)

/-- The characters of the bytes after a state. -/
def decodeFrom : Option Started → List UInt8 → List Char
  | none, [] => []
  | some _, [] => [replacement]
  | state, b :: bs =>
    let (cs, next) := advance state b
    cs ++ decodeFrom next bs

/-- The text of any bytes. -/
def decode (bytes : List UInt8) : List Char := decodeFrom none bytes

end LasFile.Utf8
