import LasFile.OpenFile
import LasFile.Proofs.Byte.Placement
import LasFile.Proofs.Vlr.Calls
import LasFile.Proofs.Vlr.Length

/-!
# Walks over written records

A walk over records that were written one after the other somewhere in a file finds each of them,
with its user as the field holds it and its payload in place. The range reader need only give the
bytes that it is asked for, whatever state it keeps.
-/

namespace LasFile

open Outcome Read

/-! ## Headers -/

/-- The length field of a record whose payload it can state. -/
theorem VlrKind.yields_length (kind : VlrKind) {n : Nat}
    (hn : n < ByteOrder.capacity kind.lengthWidth) :
    Yields .little (Read.number kind.lengthWidth)
      ((match kind with
        | .short => Item.u16 (.ofNat n)
        | .extended => Item.u64 (.ofNat n)).encode .little) n := by
  have h := yields_number .little kind.lengthWidth n
  rw [Nat.mod_eq_of_lt hn] at h
  cases kind with
  | short =>
    have hfield : (Item.u16 (.ofNat n)).encode .little = ByteOrder.little.bytes 2 n := by
      rw [Item.encode, UInt16.toNat_ofNat_of_lt' hn]
    rw [hfield]
    exact h
  | extended =>
    have hfield : (Item.u64 (.ofNat n)).encode .little = ByteOrder.little.bytes 8 n := by
      rw [Item.encode, UInt64.toNat_ofNat_of_lt' hn]
    rw [hfield]
    exact h

namespace Catalog

/-- The header of a record gives its user, its number and the length of its payload. -/
theorem decode_headerItems (v : Vlr) (kind : VlrKind)
    (hlength : v.data.length < ByteOrder.capacity kind.lengthWidth) :
    Read.decode (readHeader kind) (Item.encodeAll .little (v.headerItems kind)) =
      .ok (FixedText.stored Vlr.userIdWidth v.userId, v.recordId, v.data.length) := by
  -- The last byte of the description is read, those in front of it are left out.
  obtain ⟨front, last, hdescription⟩ : ∃ front last,
      FixedText.encode Vlr.descriptionWidth v.description = front ++ [last] := by
    have hne : FixedText.encode Vlr.descriptionWidth v.description ≠ [] := by
      rw [← List.length_pos_iff, FixedText.length_encode]
      decide
    exact ⟨_, _, (List.dropLast_concat_getLast hne).symm⟩
  have hfront : front.length = Vlr.descriptionWidth - 1 := by
    have hlength := congrArg List.length hdescription
    rw [FixedText.length_encode, List.length_append, List.length_singleton] at hlength
    omega
  have hskip : Yields .little (Read.skip (Vlr.descriptionWidth - 1)) front () :=
    hfront ▸ yields_skip front
  have hlast : Yields .little Read.u8 [last] last := Item.encode_u8 .little last ▸ yields_u8 last
  have hreserved : Yields .little (Read.skip 2) ((Item.u16 v.reserved).encode .little) () := by
    have h : Yields .little _ ((Item.u16 v.reserved).encode .little) () := yields_skip _
    rwa [Item.length_encode] at h
  have h : Yields .little (readHeader kind) (Item.encodeAll .little (v.headerItems kind))
      (FixedText.stored Vlr.userIdWidth v.userId, v.recordId, v.data.length) := by
    have hdescribed :
        (Item.text v.description Vlr.descriptionWidth).encode .little = front ++ [last] :=
      hdescription
    simp only [Vlr.headerItems, Item.encodeAll_cons, Item.encodeAll_nil, hdescribed,
      List.append_assoc]
    exact hreserved.bind <| (yields_text v.userId Vlr.userIdWidth).bind <|
      (yields_u16 v.recordId).bind <| (kind.yields_length hlength).bind <| hskip.bind <|
      hlast.bind <| yields_pure _
  have hdecode := h.decode []
  rwa [List.append_nil] at hdecode

/-! ## Walks -/

/-- The entries of records that were written one after the other from a position on. -/
def entriesOf (kind : VlrKind) : Nat → List Vlr → List VlrEntry
  | _, [] => []
  | position, v :: vs =>
    { userId := FixedText.stored Vlr.userIdWidth v.userId
      recordId := v.recordId
      offset := position + kind.headerSize
      length := v.data.length } :: entriesOf kind (position + v.size kind) vs

/-- A payload that was written fits the length field. -/
theorem length_lt_capacity {v : Vlr} {kind : VlrKind} {part : Bytes}
    (hpart : v.encode kind = .ok part) {position : Nat}
    (hend : position + v.size kind < UInt64.size) :
    v.data.length < ByteOrder.capacity kind.lengthWidth := by
  have hshort := (Vlr.encode_eq_ok.1 hpart).1
  rw [Vlr.size] at hend
  cases kind with
  | short => exact Nat.lt_succ_of_le (hshort rfl)
  | extended => exact Nat.lt_of_le_of_lt (by omega) hend

/-- The entry of a record, and the position behind it. -/
theorem step_headerItems {v : Vlr} {kind : VlrKind} {part : Bytes}
    (hpart : v.encode kind = .ok part) {position : Nat}
    (hend : position + v.size kind < UInt64.size) :
    step kind position (Item.encodeAll .little (v.headerItems kind)) =
      .ok ({ userId := FixedText.stored Vlr.userIdWidth v.userId
             recordId := v.recordId
             offset := position + kind.headerSize
             length := v.data.length }, position + v.size kind) := by
  have hsize : position + kind.headerSize + v.data.length = position + v.size kind := by
    rw [Vlr.size, Nat.add_assoc]
  have hheader : advance position kind.headerSize = .ok (position + kind.headerSize) :=
    advance_of_lt (by omega)
  have hpayload : advance (position + kind.headerSize) v.data.length =
      .ok (position + v.size kind) := by
    rw [advance_of_lt (by omega), hsize]
  simp only [step, decodeHeader, decode_headerItems v kind (length_lt_capacity hpart hend), hheader,
    hpayload, Bind.bind, Except.bind, pure, Except.pure]

end Catalog

/-! ## Ranges -/

/-- The range reader gives the bytes of a file wherever they are asked for within it. -/
def RangeReader.Serves {σ : Type} (range : RangeReader σ) (file : Bytes) : Prop :=
  ∀ (offset length : Nat) (s : σ), offset + length ≤ file.length →
    ∃ t, range offset length s = .ok (file.slice offset length) t

/-- A part of the file is given back where it stands. -/
theorem RangeReader.Serves.part {σ : Type} {range : RangeReader σ} {file : Bytes}
    (hserves : range.Serves file) {place : Nat} {part : Bytes} (hpart : file.HoldsAt place part)
    (hroom : place + part.length ≤ file.length) (s : σ) :
    ∃ t, range place part.length s = .ok part t := by
  obtain ⟨t, ht⟩ := hserves place part.length s hroom
  rw [hpart] at ht
  exact ⟨t, ht⟩

/-- Writing down what is asked for changes no answer. -/
theorem RangeReader.Serves.recording {σ : Type} {range : RangeReader σ} {file : Bytes}
    (hserves : range.Serves file) : (Catalog.recording range).Serves file := by
  intro offset length (s, log) hroom
  obtain ⟨t, ht⟩ := hserves offset length s hroom
  exact ⟨(t, log ++ [(offset, length)]), by rw [Catalog.recording, ht]⟩

theorem Bytes.serves_rangeReader (file : Bytes) : file.rangeReader.Serves file := by
  intro offset length s hroom
  refine ⟨s, ?_⟩
  unfold Bytes.rangeReader
  rw [Bytes.range_of_le hroom]
  rfl

namespace Catalog

/-- A walk from the first of some written records finds all of them. -/
theorem walk_of_serves {σ : Type} {range : RangeReader σ} {file : Bytes}
    (hserves : range.Serves file) {kind : VlrKind} {vlrs : List Vlr} {blocks : List Bytes}
    (hblocks : vlrs.mapM (·.encode kind) = .ok blocks) {position : Nat}
    (hplace : file.HoldsAt position blocks.flatten)
    (hend : position + Vlr.totalSize kind vlrs < UInt64.size) (s : σ) :
    ∃ t, walk range kind vlrs.length position s = .ok (entriesOf kind position vlrs) t := by
  induction vlrs generalizing blocks position s with
  | nil => exact ⟨s, rfl⟩
  | cons v vs ih =>
    obtain ⟨part, parts, hpart, hparts, rfl⟩ := mapM_cons_eq_ok.1 hblocks
    obtain ⟨-, hsplit⟩ := Vlr.encode_eq_ok.1 hpart
    have hheaderSize := Vlr.length_headerItems v kind
    have hpos : 0 < kind.headerSize := by cases kind <;> decide
    rw [List.flatten_cons] at hplace
    obtain ⟨hfirst, hothers⟩ := hplace.append
    rw [Vlr.length_encode hpart] at hothers
    rw [hsplit] at hfirst
    obtain ⟨hheader, -⟩ := hfirst.append
    obtain ⟨t, hanswer⟩ := hserves.part hheader (hheader.le (by omega)) s
    rw [hheaderSize] at hanswer
    rw [Vlr.totalSize] at hend
    have hstep : step kind position (Item.encodeAll .little (v.headerItems kind)) = _ :=
      step_headerItems hpart (by omega)
    obtain ⟨last, hrest⟩ := ih hparts hothers (by omega) t
    refine ⟨last, ?_⟩
    rw [List.length_cons, walk, Stateful.bind_of_ok hanswer]
    simp only [hstep, Stateful.bind_of_ok hrest, Stateful.pure_apply, entriesOf]

end Catalog

end LasFile
