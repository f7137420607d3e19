import LasFile.Proofs.Number.Grid
import LasFile.Proofs.Record.IntegerField

/-!
# Coordinates of the core

Every core begins with the three coordinates, each as the number of four bytes nearest to its place
on the grid of its axis. A packed record gives a point the coordinates that come back from there.
-/

namespace LasFile

open Outcome

/-! ## Axes -/

/-- One of the three axes. -/
inductive Axis where
  | x
  | y
  | z
  deriving DecidableEq, Repr

/-- The dimension of the coordinate. -/
def Axis.dimension : Axis → Dimension
  | x => .x
  | y => .y
  | z => .z

/-- What belongs to an axis. -/
def Axes.at {α : Type} (a : Axes α) : Axis → α
  | .x => a.x
  | .y => a.y
  | .z => a.z

/-! ## Cores -/

namespace Core

/-- A coordinate is stored if the nearest number has four bytes. -/
theorem coordinate_eq_ok {p : Point} {d : Dimension} {t : Transform} {n : Int}
    (h : coordinate p d t = .ok n) : (t.toStored (p.number d)).nearestInt? = some n ∧
      t.regrid (p.number d) = some (t.fromStored (.ofInt n)) ∧
      n.natAbs < 2 * Precision.binary64.hiddenBit := by
  obtain ⟨hn, hlow, hhigh⟩ := Value.whole_eq_ok.1 h
  have hnearest : (t.toStored (p.number d)).nearestInt? = some n := hn
  refine ⟨hnearest, by rw [Transform.regrid, hnearest]; rfl, ?_⟩
  have hcapacity : ByteOrder.capacity Width.four.bytes = 4294967296 :=
    ByteOrder.capacity_width .four
  have hbits : Precision.binary64.hiddenBit = 4503599627370496 := by decide
  omega

/-- Coordinates on a grid of finite scale come back in their order. -/
theorem fromStored_ieeeLe {p q : Point} {d : Dimension} {t : Transform} {n m : Int}
    (hscale : t.scale.isFinite = true) (hn : coordinate p d t = .ok n)
    (hm : coordinate q d t = .ok m) (h : (p.number d).ieeeLe (q.number d) = true) :
    (t.fromStored (.ofInt n)).ieeeLe (t.fromStored (.ofInt m)) = true := by
  obtain ⟨hnearest, -, hsmall⟩ := coordinate_eq_ok hn
  obtain ⟨hnearest', -, hsmall'⟩ := coordinate_eq_ok hm
  exact (Transform.stores_of_nearestInt? hscale hnearest).fromStored_ieeeLe hscale
    (Transform.stores_of_nearestInt? hscale hnearest') hsmall hsmall' h

/-- An integer of the range of four bytes is read from where it was put. -/
theorem integerAt_of_holdsAt {bs : Bytes} {start : Nat} {n : Int}
    (hlow : -(ByteOrder.capacity Width.four.bytes / 2 : Int) ≤ n)
    (hhigh : n ≤ (ByteOrder.capacity Width.four.bytes / 2 : Int) - 1)
    (h : bs.HoldsAt start (Value.signedBytes .four n)) : integerAt bs start 4 = n := by
  have hbytes : bs.slice start 4 = Value.signedBytes .four n := by
    rwa [Bytes.HoldsAt, Value.length_signedBytes] at h
  rw [integerAt, numberAt, hbytes, Value.toNat_signedBytes]
  exact ByteOrder.ofComplement_complement .four hlow hhigh

/-- The coordinates at the beginning of a core are read as they were stored. -/
theorem mem_decodeCommon {scaling : Scaling} {p : Point} {x y z : Int} {rest : Bytes}
    (hx : coordinate p .x scaling.x = .ok x) (hy : coordinate p .y scaling.y = .ok y)
    (hz : coordinate p .z scaling.z = .ok z) (axis : Axis) :
    ∃ n, coordinate p axis.dimension (scaling.at axis) = .ok n ∧
      (axis.dimension, .float ((scaling.at axis).fromStored (.ofInt n))) ∈
        decodeCommon scaling (Value.signedBytes .four x ++ (Value.signedBytes .four y ++
          (Value.signedBytes .four z ++ rest))) := by
  have hread : ∀ {bs : Bytes} {start : Nat} {d : Dimension} {t : Transform} {n : Int},
      coordinate p d t = .ok n → bs.HoldsAt start (Value.signedBytes .four n) →
        integerAt bs start 4 = n := by
    intro bs start d t n hn h
    obtain ⟨-, hlow, hhigh⟩ := Value.whole_eq_ok.1 hn
    exact integerAt_of_holdsAt hlow hhigh h
  obtain ⟨hxs, hrest⟩ := (Bytes.holdsAt_append [] (Value.signedBytes .four x ++
    (Value.signedBytes .four y ++ (Value.signedBytes .four z ++ rest))) []).append
  obtain ⟨hys, hrest⟩ := hrest.append
  obtain ⟨hzs, -⟩ := hrest.append
  simp only [List.nil_append, List.append_nil, List.length_nil, Value.length_signedBytes,
    Width.bytes, Nat.zero_add] at hxs hys hzs
  have hxat := hread hx hxs
  have hyat := hread hy hys
  have hzat := hread hz hzs
  cases axis with
  | x => exact ⟨x, hx, by simp [decodeCommon, hxat, Axis.dimension, Axes.at]⟩
  | y => exact ⟨y, hy, by simp [decodeCommon, hyat, Axis.dimension, Axes.at]⟩
  | z => exact ⟨z, hz, by simp [decodeCommon, hzat, Axis.dimension, Axes.at]⟩

end Core

namespace FormatLayout

variable (l : FormatLayout) {scaling : Scaling} {p : Point} {part : Bytes}

/-- A core that takes a point gives its coordinates back from the grid. -/
theorem coordinate_of_encode_coreSlot (h : (l.coreSlot scaling).encode p = .ok part)
    (axis : Axis) :
    ∃ n, Core.coordinate p axis.dimension (scaling.at axis) = .ok n ∧
      (axis.dimension, .float ((scaling.at axis).fromStored (.ofInt n))) ∈
        (l.coreSlot scaling).decode part := by
  unfold coreSlot at h ⊢
  cases hkind : l.extended with
  | false =>
    rw [hkind] at h
    simp only [Bool.false_eq_true, if_false, Slot.legacyCore, LegacyCore.encode, bind_eq_ok,
      pure_eq_ok, List.append_assoc] at h
    obtain ⟨x, hx, y, hy, z, hz, _, -, _, -, _, -, _, -, _, -, _, -, _, -, _, -, _, -, _, -,
      rfl⟩ := h
    obtain ⟨n, hn, hmem⟩ := Core.mem_decodeCommon hx hy hz axis
    exact ⟨n, hn, List.mem_append_left _ hmem⟩
  | true =>
    rw [hkind] at h
    simp only [if_true, Slot.extendedCore, ExtendedCore.encode, bind_eq_ok, pure_eq_ok,
      List.append_assoc] at h
    obtain ⟨x, hx, y, hy, z, hz, _, -, _, -, _, -, _, -, _, -, _, -, _, -, _, -, _, -, _, -, _, -,
      rfl⟩ := h
    obtain ⟨n, hn, hmem⟩ := Core.mem_decodeCommon hx hy hz axis
    exact ⟨n, hn, List.mem_append_left _ hmem⟩

end FormatLayout

/-- A packed record gives a point the coordinate that comes back from the grid, in every layout of
its format that has no extra dimension of that name. -/
theorem RecordLayout.coordinate_of_pack {number : UInt8} {format : FormatLayout}
    (hformat : FormatLayout.ofNumber? number = some format) {scaling : Scaling}
    {dims : List ExtraDim} (hbehind : ∀ dim ∈ dims, format.coreSize ≤ dim.start) {p : Point}
    {buffer packed : Bytes} {configured : Bool}
    (hroom : (ofFormat number scaling dims).recordLength ≤ buffer.length)
    (hpack : (ofFormat number scaling dims).pack p buffer = .ok configured packed) (axis : Axis) :
    ∃ n, Core.coordinate p axis.dimension (scaling.at axis) = .ok n ∧
      ∀ others : List ExtraDim, (∀ dim ∈ others, dim.id ≠ axis.dimension) → ∀ q : Point,
        (q.setAll ((ofFormat number scaling others).fields packed)).get? axis.dimension =
          some (.float ((scaling.at axis).fromStored (.ofInt n))) := by
  have hconfigured : configured = true := by
    obtain ⟨-, -, rfl, -⟩ := (pack_eq_ok hroom).1 hpack
    exact isConfigured_ofFormat hformat scaling dims
  subst hconfigured
  obtain ⟨n, hn, hmem⟩ := format.coordinate_of_encode_coreSlot
    (slice_core_of_pack hformat hbehind hroom hpack) axis
  exact ⟨n, hn, fun others hothers ↦ get?_setAll_fields hformat hmem hothers⟩

end LasFile
