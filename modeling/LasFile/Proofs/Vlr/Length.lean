import LasFile.Proofs.Byte.Reading
import LasFile.Proofs.Outcome
import LasFile.Vlr.Basic

/-!
# Lengths of written records

A record takes the bytes of its header and its payload, and records in a row take those of all of
them.
-/

namespace LasFile.Vlr

open Outcome

/-- The layout of a record's header. -/
def headerItems (v : Vlr) (kind : VlrKind) : List Item :=
  [.u16 v.reserved, .text v.userId userIdWidth, .u16 v.recordId,
    match kind with
    | .short => .u16 (.ofNat v.data.length)
    | .extended => .u64 (.ofNat v.data.length),
    .text v.description descriptionWidth]

theorem length_headerItems (v : Vlr) (kind : VlrKind) :
    (Item.encodeAll .little (v.headerItems kind)).length = kind.headerSize := by
  cases kind <;>
    simp [headerItems, Item.size, VlrKind.headerSize, userIdWidth, descriptionWidth]

/-- A written record is its header followed by its payload. -/
theorem encode_eq_ok {v : Vlr} {kind : VlrKind} {part : Bytes} : v.encode kind = .ok part ↔
    (kind = .short → v.data.length ≤ 65535) ∧
      part = Item.encodeAll .little (v.headerItems kind) ++ v.data := by
  have hitems : Item.encodeAll .little (v.items kind) =
      Item.encodeAll .little (v.headerItems kind) ++ v.data := by
    have hsplit : v.items kind = v.headerItems kind ++ [.bytes v.data] := by cases kind <;> rfl
    rw [hsplit, Item.encodeAll_append, Item.encodeAll_cons, Item.encodeAll_nil, List.append_nil,
      Item.encode]
  rw [encode, hitems]
  by_cases hlong : kind = .short ∧ 65535 < v.data.length
  · rw [if_pos hlong]
    simp only [reduceCtorEq, false_iff, not_and]
    exact fun h ↦ absurd (h hlong.1) (Nat.not_le.2 hlong.2)
  · rw [if_neg hlong, Except.ok.injEq, eq_comm (a := part)]
    simp only [not_and, Nat.not_lt] at hlong
    exact ⟨fun h ↦ ⟨hlong, h⟩, fun h ↦ h.2⟩

theorem length_encode {v : Vlr} {kind : VlrKind} {part : Bytes} (h : v.encode kind = .ok part) :
    part.length = v.size kind := by
  obtain ⟨-, rfl⟩ := encode_eq_ok.1 h
  rw [List.length_append, length_headerItems, size]

theorem length_flatten_encode {kind : VlrKind} {vlrs : List Vlr} {blocks : List Bytes}
    (h : vlrs.mapM (·.encode kind) = .ok blocks) :
    blocks.flatten.length = totalSize kind vlrs := by
  induction vlrs generalizing blocks with
  | nil =>
    obtain rfl := mapM_nil_eq_ok.1 h
    rfl
  | cons v vs ih =>
    obtain ⟨part, parts, hpart, hparts, rfl⟩ := mapM_cons_eq_ok.1 h
    rw [List.flatten_cons, List.length_append, length_encode hpart, ih hparts, totalSize]

/-- A written record has a payload of at most two bytes' worth. -/
theorem totalSize_le_of_encode {vlrs : List Vlr} {blocks : List Bytes}
    (h : vlrs.mapM (·.encode .short) = .ok blocks) :
    totalSize .short vlrs ≤ vlrs.length * (VlrKind.headerSize .short + 65535) := by
  induction vlrs generalizing blocks with
  | nil => exact Nat.zero_le _
  | cons v vs ih =>
    obtain ⟨part, parts, hpart, hparts, rfl⟩ := mapM_cons_eq_ok.1 h
    have hpayload := (encode_eq_ok.1 hpart).1 rfl
    have hrest := ih hparts
    rw [totalSize, size, List.length_cons, Nat.succ_mul]
    omega

/-- No record is empty. -/
theorem length_le_totalSize (kind : VlrKind) (vlrs : List Vlr) :
    vlrs.length ≤ totalSize kind vlrs := by
  induction vlrs with
  | nil => exact Nat.le_refl 0
  | cons v vs ih =>
    have hheader : 0 < kind.headerSize := by cases kind <;> decide
    rw [List.length_cons, totalSize, size]
    omega

end LasFile.Vlr
