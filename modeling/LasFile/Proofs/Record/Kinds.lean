import LasFile.Proofs.Record.Footprint

/-!
# Bytes in the place of a number

Bytes are no number, and a dimension that is stored from the nearest integer of its value refuses
them. A dimension that is stored from a double does not: bytes count as the double zero, so that the
record is the one of the point without the dimension.
-/

namespace LasFile

open Outcome

namespace Value

/-- A value has a nearest integer if it was stored as an integer. -/
theorem nearestInt?_of_encode {v : Value} {type : Scalar} (htype : type.isFloat = false)
    {dimension : String} {part : Bytes} (h : v.encode type dimension = .ok part) :
    ∃ n, v.nearestInt? = some n := by
  cases type with
  | signed w =>
    obtain ⟨n, hn, -⟩ := map_eq_ok.1 h
    exact ⟨n, (whole_eq_ok.1 hn).1⟩
  | unsigned w =>
    obtain ⟨n, hn, -⟩ := map_eq_ok.1 h
    exact ⟨n, (natural_eq_ok.1 hn).1⟩
  | single => cases htype
  | double => cases htype

/-- All that a floating type takes of a value is its double. -/
theorem encode_of_isFloat {v w : Value} {type : Scalar} (htype : type.isFloat = true)
    (h : v.toDouble = w.toDouble) (dimension : String) :
    v.encode type dimension = w.encode type dimension := by
  cases type with
  | signed width => cases htype
  | unsigned width => cases htype
  | single => rw [encode, encode, h]
  | double => rw [encode, encode, h]

end Value

namespace ExtraDim

variable {dim : ExtraDim} {s : Scalar} {p q : Point} {content : Bytes}

theorem stored_of_bytes (h : p.get? dim.id = some (.bytes content)) (s : Scalar) :
    dim.stored s p = .bytes content := by
  simp only [stored, h]

/-- An integer type refuses bytes, with a transform or without. -/
theorem encode_bytes_ne_ok (hstorage : dim.storage = .scalar s) (hs : s.isFloat = false)
    (h : p.get? dim.id = some (.bytes content)) (part : Bytes) : dim.encode p ≠ .ok part := by
  intro hencode
  rw [encode_scalar hstorage, stored_of_bytes h] at hencode
  obtain ⟨n, hn⟩ := Value.nearestInt?_of_encode hs hencode
  cases hn

/-- A floating type stores bytes as it stores nothing at all. -/
theorem encode_bytes_eq_encode_none (hstorage : dim.storage = .scalar s) (hs : s.isFloat = true)
    (h : p.get? dim.id = some (.bytes content)) (hnone : q.get? dim.id = none) :
    dim.encode p = dim.encode q := by
  have hzero : (Value.bytes content).toDouble = (Value.unsigned 0).toDouble :=
    (by decide : Double.zero = .ofInt 0)
  rw [encode_scalar hstorage, encode_scalar hstorage, stored_of_bytes h, stored, hnone]
  exact Value.encode_of_isFloat hs hzero dim.name

end ExtraDim

/-- A format takes the same from bytes in the place of a double as from nothing. -/
theorem FormatLayout.Agrees.of_bytes {l : FormatLayout} {p q : Point} {d : Dimension}
    {content : Bytes} (hbytes : p.get? d = some (.bytes content))
    (hdouble : d ∈ l.dimensions → d ∈ l.doubles) (hnone : q.get? d = none)
    (hsame : ∀ e, e ≠ d → q.get? e = p.get? e) : l.Agrees p q where
  number e _ := by
    by_cases he : e = d
    · rw [he, Point.number, Point.number, hbytes, hnone]
      rfl
    · rw [Point.number, Point.number, hsame e he]
  alike e hmem hwhole := by
    have he : e ≠ d := fun heq ↦ hwhole (heq ▸ hdouble (heq ▸ hmem))
    rw [Point.valueOrZero, Point.valueOrZero, hsame e he]
    exact .refl _

namespace RecordLayout

variable {number : UInt8} {format : FormatLayout}

/-- Bytes in the place of a number. A dimension of the format that is not stored from a double, and
an extra dimension of an integer type, refuse them. Where every dimension of the name is stored from
a double – a coordinate, the GPS time, the scan angle from format 6 on, an extra dimension of a
floating type – the point is written as if it did not carry the dimension. -/
theorem pack_of_bytes (hformat : FormatLayout.ofNumber? number = some format) (scaling : Scaling)
    (dims : List ExtraDim) {p : Point} {d : Dimension} {content : Bytes}
    (hbytes : p.get? d = some (.bytes content)) :
    ((d ∈ format.dimensions ∧ d ∉ format.doubles ∨ ∃ dim ∈ dims, dim.id = d ∧
        ∃ s, dim.storage = .scalar s ∧ s.isFloat = false) →
      ∀ buffer : Bytes, (ofFormat number scaling dims).recordLength ≤ buffer.length →
        ∃ dimension value rest, (ofFormat number scaling dims).pack p buffer =
          .error (.outOfRange dimension value) rest) ∧
    ((d ∈ format.dimensions → d ∈ format.doubles) →
      (∀ dim ∈ dims, dim.id = d → ∃ s, dim.storage = .scalar s ∧ s.isFloat = true) →
      ∀ q : Point, q.get? d = none → (∀ e, e ≠ d → q.get? e = p.get? e) →
        ∀ buffer, (ofFormat number scaling dims).pack p buffer =
          (ofFormat number scaling dims).pack q buffer) := by
  constructor
  · intro hwhole buffer hroom
    refine refusal_of_pack hroom fun configured packed hpack ↦ ?_
    rcases hwhole with ⟨hd, hwhole⟩ | ⟨dim, hdim, rfl, s, hstorage, hs⟩
    · obtain ⟨n, hn⟩ := nearestInt?_of_pack hformat hroom hpack d hd hwhole
      rw [Point.valueOrZero, hbytes] at hn
      cases hn
    · have hslot : dim.slot ∈ (ofFormat number scaling dims).slots := by
        rw [slots_ofFormat hformat]
        simp [List.mem_map_of_mem hdim]
      obtain ⟨part, hencode⟩ := exists_encode_of_pack hroom hpack dim.slot hslot
      exact ExtraDim.encode_bytes_ne_ok hstorage hs hbytes part hencode
  · intro hdouble hfloat q hnone hsame buffer
    have hdims : ∀ dim ∈ dims, dim.encode p = dim.encode q := by
      intro dim hdim
      by_cases hid : dim.id = d
      · obtain ⟨s, hstorage, hs⟩ := hfloat dim hdim hid
        subst hid
        exact ExtraDim.encode_bytes_eq_encode_none hstorage hs hbytes hnone
      · exact ExtraDim.encode_congr (hsame dim.id hid).symm
    rw [pack_congr_ofFormat hformat (.of_bytes hbytes hdouble hnone hsame) hdims]

/-- The scan angle is a number of one byte in format 0, which refuses bytes, and is stored from a
double in format 6, which writes them as zero. -/
theorem pack_of_bytes_scanAngle :
    let p := Point.empty.set .scanAngleRank (.bytes [7])
    (∃ dimension value rest, (ofFormat 0 .identity []).pack p (List.replicate 20 255) =
      .error (.outOfRange dimension value) rest) ∧
    (ofFormat 6 .identity []).pack p (List.replicate 30 255) =
      (ofFormat 6 .identity []).pack .empty (List.replicate 30 255) ∧
    ∃ packed, (ofFormat 6 .identity []).pack p (List.replicate 30 255) = .ok true packed := by
  intro p
  have hbytes : p.get? .scanAngleRank = some (.bytes [7]) := rfl
  have hlegacy : FormatLayout.ofNumber? 0 = some (.legacy 20 none none none) := rfl
  have hmodern : FormatLayout.ofNumber? 6 = some (.modern 30 none none none) := rfl
  have hrefused := (pack_of_bytes hlegacy .identity [] hbytes).1
    (.inl (by decide)) (List.replicate 20 255) (by decide)
  have hequal := (pack_of_bytes hmodern .identity [] hbytes).2 (by decide) (by simp)
    .empty rfl (fun e he ↦ by simp [p, he]) (List.replicate 30 255)
  have hparts : ∃ parts, (ofFormat 6 .identity []).parts .empty = .ok parts :=
    isSome_toOption.1 (by decide +kernel)
  obtain ⟨parts, hparts⟩ := hparts
  exact ⟨hrefused, hequal, _, hequal.trans (pack_of_parts (by decide) hparts)⟩

end RecordLayout

end LasFile
