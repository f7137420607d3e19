import LasFile.Dimension
import LasFile.Storage
import LasFile.Transform

/-!
# Extra dimensions

An `ExtraDim` is a dimension stored behind the standard fields of a record: a name, a storage type,
a transform and the place in the record. `ExtraDim.contiguous` places dimensions one after the other
without a gap, which is how options, samples and files all lay them out.
-/

namespace LasFile

structure ExtraDim where
  name : String
  storage : Storage
  transform : Transform
  /-- Place of the first byte in the record. -/
  offset : Int
  deriving DecidableEq, Repr, Inhabited

namespace ExtraDim

/-- A dimension stored as it is. -/
def plain (name : String) (storage : Storage) (offset : Int) : ExtraDim :=
  ⟨name, storage, .identity, offset⟩

/-- The dimension of a point that this stores: the standard one with this name, or a user's. -/
def id (d : ExtraDim) : Dimension := .ofName d.name

/-- Bytes taken in the record. -/
def size (d : ExtraDim) : Nat := d.storage.size

/-- The first byte; a negative place counts as the beginning of the record. -/
def start (d : ExtraDim) : Nat := d.offset.toNat

/-- One past the last byte. -/
def limit (d : ExtraDim) : Nat := d.start + d.size

/-- Whether two dimensions have the same name and storage. That is enough to match one given as an
option against one found in a file; places and transforms do not count. -/
def agrees (a b : ExtraDim) : Bool := a.name == b.name && a.storage == b.storage

/-- Whether two lists agree dimension by dimension. -/
def allAgree : List ExtraDim → List ExtraDim → Bool
  | [], [] => true
  | a :: as, b :: bs => a.agrees b && allAgree as bs
  | _, _ => false

/-- All dimensions moved by `start` bytes. -/
def relocate (start : Int) (dims : List ExtraDim) : List ExtraDim :=
  dims.map fun d ↦ { d with offset := d.offset + start }

/-- The dimensions placed one after the other from `start` on. -/
def contiguous (start : Int) : List ExtraDim → List ExtraDim
  | [] => []
  | d :: ds => { d with offset := start } :: contiguous (start + d.size) ds

/-- Bytes taken by all dimensions together. -/
def totalSize : List ExtraDim → Nat
  | [] => 0
  | d :: ds => d.size + totalSize ds

end ExtraDim

end LasFile
