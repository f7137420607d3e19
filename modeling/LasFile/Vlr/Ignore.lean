import LasFile.Vlr.Basic

/-!
# Ignored records

Options name records to be left out, as `user/number` or as `user` alone for every number.
-/

namespace LasFile

structure IgnoreRule where
  userId : String
  /-- The number, or every number. -/
  recordId : Option UInt16
  deriving DecidableEq, Repr, Inhabited

namespace IgnoreRule

def covers (r : IgnoreRule) (v : Vlr) : Bool :=
  r.userId == v.userId && r.recordId.all (· == v.recordId)

/-- The value of decimal digits. -/
def digitsValue? (cs : List Char) : Option Nat :=
  if cs.isEmpty || !cs.all Char.isDigit then none
  else some (cs.foldl (fun n c ↦ 10 * n + (c.toNat - '0'.toNat)) 0)

/-- A number below 65536, with an optional plus sign. -/
def recordNumber? (text : String) : Option UInt16 := do
  let digits := match text.toList with
    | '+' :: rest => rest
    | cs => cs
  let n ← digitsValue? digits
  if n < 65536 then some (.ofNat n) else none

/-- The rule named by an option. -/
def parse (option : String) : Except Error IgnoreRule := do
  let text := Text.trim option
  let rule : IgnoreRule ← match Text.splitAt? '/' text with
    | none => .ok ⟨text, none⟩
    | some (user, number) =>
      match recordNumber? (Text.trim number) with
      | some id => .ok ⟨Text.trim user, some id⟩
      | none => .error (.ignoreOption text)
  if rule.userId.isEmpty || Vlr.userIdWidth < rule.userId.utf8ByteSize then
    .error (.ignoreOption text)
  else return rule

/-- The rules named by options, or the error of the first bad one. -/
def parseAll (options : List String) : Except Error (List IgnoreRule) := options.mapM parse

end IgnoreRule

end LasFile
