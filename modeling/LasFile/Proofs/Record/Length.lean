import LasFile.ExtraDim.Selection
import LasFile.Proofs.ExtraDim.Contiguous
import LasFile.Proofs.Outcome
import LasFile.Proofs.Stateful
import LasFile.Record.Layout

/-!
# Lengths of records

Every slot writes exactly the bytes of its width, inside the limit of its section, so that a record
keeps the length of the zeros that it is written into. The sections of a format with dimensions
placed behind it one after the other reach as far as `FormatLayout.readLength` says, which is the
length of its records unless a waveform packet is the last of them.
-/

namespace LasFile

open Outcome

/-! ## Slots -/

namespace Value

@[simp]
theorem length_signedBytes (w : Width) (n : Int) : (signedBytes w n).length = w.bytes :=
  ByteOrder.length_bytes _ _ _

@[simp]
theorem length_unsignedBytes (w : Width) (n : Nat) : (unsignedBytes w n).length = w.bytes :=
  ByteOrder.length_bytes _ _ _

@[simp]
theorem length_doubleBytes (d : Double) : (doubleBytes d).length = 8 := ByteOrder.length_bytes _ _ _

@[simp]
theorem length_singleBytes (s : Single) : (singleBytes s).length = 4 := ByteOrder.length_bytes _ _ _

theorem length_encode (type : Scalar) (dimension : String) (v : Value) :
    Ensures (v.encode type dimension) fun part ↦ part.length = type.size := by
  cases type with
  | signed w => exact .map fun n ↦ length_signedBytes w n
  | unsigned w => exact .map fun n ↦ length_unsignedBytes w n
  | single => exact ensures_ok (length_singleBytes _)
  | double => exact ensures_ok (length_doubleBytes _)

end Value

namespace LegacyCore

theorem length_encode (scaling : Scaling) (p : Point) :
    Ensures (encode scaling p) fun part ↦ part.length = size := by
  unfold encode
  iterate 13 refine .bind fun _ ↦ ?_
  exact ensures_ok (by simp [Width.bytes, size])

end LegacyCore

namespace ExtendedCore

theorem length_encode (scaling : Scaling) (p : Point) :
    Ensures (encode scaling p) fun part ↦ part.length = size := by
  unfold encode
  iterate 14 refine .bind fun _ ↦ ?_
  exact ensures_ok (by simp [Width.bytes, size])

end ExtendedCore

theorem ExtraDim.length_encode (dim : ExtraDim) (p : Point) :
    Ensures (dim.encode p) fun part ↦ part.length = dim.size := by
  cases hstorage : dim.storage with
  | raw n =>
    simp only [ExtraDim.encode, ExtraDim.size, hstorage, Storage.size]
    split
    · exact ensures_ok (Bytes.length_padded _ _)
    · exact ensures_ok List.length_replicate
  | scalar s =>
    simp only [ExtraDim.encode, ExtraDim.size, hstorage, Storage.size]
    exact Value.length_encode _ _ _

/-- A slot that writes as many bytes as it is wide. -/
def Slot.Exact (s : Slot) : Prop := ∀ p, Ensures (s.encode p) fun part ↦ part.length = s.width

namespace Section

theorem exact_of_mem_slots {s : Section} {slot : Slot} (h : slot ∈ s.slots) : slot.Exact := by
  intro p
  cases s <;> simp only [slots, List.mem_cons, List.not_mem_nil, or_false, List.mem_map] at h
  case legacyCore scaling =>
    subst h
    exact LegacyCore.length_encode scaling p
  case extendedCore scaling =>
    subst h
    exact ExtendedCore.length_encode scaling p
  case gpsTime start =>
    subst h
    exact ensures_ok (Value.length_doubleBytes _)
  case color start =>
    obtain rfl | rfl | rfl := h <;> exact .map fun n ↦ Value.length_unsignedBytes .two n
  case nearInfrared start =>
    subst h
    exact .map fun n ↦ Value.length_unsignedBytes .two n
  case extraDims dims =>
    obtain ⟨dim, -, rfl⟩ := h
    exact dim.length_encode p

end Section

/-! ## Limits -/

theorem foldl_max_le_iff {ns : List Nat} {m n : Nat} :
    ns.foldl max m ≤ n ↔ m ≤ n ∧ ∀ k ∈ ns, k ≤ n := by
  induction ns generalizing m with
  | nil => simp
  | cons k ns ih =>
    rw [List.foldl_cons, ih, Nat.max_le, List.forall_mem_cons, and_assoc]

namespace Section

/-- A section reaches to the end of each of its slots. -/
theorem end_le_limit {s : Section} {slot : Slot} (h : slot ∈ s.slots) :
    slot.start + slot.width ≤ s.limit := by
  cases s <;> simp only [slots, List.mem_cons, List.not_mem_nil, or_false, List.mem_map] at h
  case extraDims dims =>
    obtain ⟨dim, hdim, rfl⟩ := h
    exact (foldl_max_le_iff.1 (Nat.le_refl _)).2 _ (List.mem_map_of_mem hdim)
  case color start =>
    obtain rfl | rfl | rfl := h <;> simp only [Slot.word, limit] <;> omega
  all_goals
    subst h
    simp [Slot.legacyCore, Slot.extendedCore, Slot.gpsTime, Slot.word, limit]

end Section

/-! ## Records -/

/-- A step that leaves a buffer of at least some length as long as it was if it succeeds. -/
def KeepsLength {α : Type} (least : Nat) (x : EStateM Error Bytes α) : Prop :=
  ∀ buffer a after, least ≤ buffer.length → x buffer = .ok a after → after.length = buffer.length

namespace KeepsLength

variable {α β : Type} {least : Nat}

theorem pure (a : α) : KeepsLength least (pure a) := by
  rintro buffer _ _ - ⟨⟩
  rfl

theorem bind {x : EStateM Error Bytes α} {f : α → EStateM Error Bytes β} (hx : KeepsLength least x)
    (hf : ∀ a, KeepsLength least (f a)) : KeepsLength least (x >>= f) := by
  intro buffer b after hleast h
  obtain ⟨a, between, hbetween, hafter⟩ := Stateful.bind_eq_ok.1 h
  have hlength := hx _ _ _ hleast hbetween
  exact (hf a _ _ _ (hlength ▸ hleast) hafter).trans hlength

theorem forM {f : α → EStateM Error Bytes Unit} {as : List α}
    (h : ∀ a ∈ as, KeepsLength least (f a)) : KeepsLength least (as.forM f) := by
  induction as with
  | nil => exact pure ()
  | cons a as ih =>
    obtain ⟨ha, has⟩ := List.forall_mem_cons.1 h
    exact ha.bind fun _ ↦ ih has

end KeepsLength

/-- A slot that lies in a buffer replaces bytes of it. -/
theorem Slot.keepsLength_pack {s : Slot} (hexact : s.Exact) {least : Nat}
    (hleast : s.start + s.width ≤ least) (p : Point) : KeepsLength least (s.pack p) := by
  intro buffer a after hbuffer h
  cases hpart : s.encode p with
  | ok part =>
    have hwidth := hexact p part hpart
    simp only [Slot.pack, hpart, Stateful.modify_apply, EStateM.Result.ok.injEq, true_and] at h
    obtain rfl := h
    exact Bytes.length_overwrite (by omega)
  | error e =>
    simp only [Slot.pack, hpart] at h
    cases h

/-- The check in front of a section makes room for all of its slots. -/
theorem Section.keepsLength_pack (s : Section) (p : Point) : KeepsLength 0 (s.pack p) := by
  intro buffer a after _ h
  have hslots : KeepsLength s.limit (s.slots.forM fun slot ↦ slot.pack p) :=
    .forM fun slot hslot ↦ slot.keepsLength_pack (exact_of_mem_slots hslot) (end_le_limit hslot) p
  rw [Section.pack, Stateful.get_bind, Section.checkLength] at h
  by_cases hshort : buffer.length < s.limit
  · rw [if_pos hshort] at h
    cases h
  · rw [if_neg hshort] at h
    exact hslots _ _ _ (Nat.not_lt.1 hshort) h

/-! ## What is read of a record -/

namespace FormatLayout

/-- How many bytes of a record are read: without dimensions behind it those in front of the waveform
packet, if there is one, and else all of them. -/
def readLength (l : FormatLayout) (dims : List ExtraDim) : Nat :=
  if dims.isEmpty then l.waveform.getD l.baseSize else l.recordLength dims

theorem readLength_contiguous (l : FormatLayout) (start : Int) (dims : List ExtraDim) :
    l.readLength (ExtraDim.contiguous start dims) = l.readLength dims := by
  rw [readLength, ExtraDim.isEmpty_contiguous, ExtraDim.recordLength_contiguous, readLength]

/-- A record is read as a whole unless a waveform packet is the last of it. -/
theorem readLength_eq_recordLength {l : FormatLayout} {dims : List ExtraDim}
    (h : l.waveform = none ∨ dims ≠ []) : l.readLength dims = l.recordLength dims := by
  cases dims with
  | nil =>
    have hwaveform : l.waveform = none := h.resolve_right (fun hne ↦ hne rfl)
    rw [readLength, hwaveform]
    rfl
  | cons d ds => rfl

/-- A waveform packet stands within its format. -/
theorem readLength_nil_le_baseSize : ∀ l ∈ all, l.readLength [] ≤ l.baseSize := by
  decide

theorem readLength_nil_le {l : FormatLayout} (hl : l ∈ all) (dims : List ExtraDim) :
    l.readLength [] ≤ l.readLength dims := by
  cases dims with
  | nil => exact Nat.le_refl _
  | cons d ds => exact Nat.le_add_right_of_le (readLength_nil_le_baseSize l hl)

theorem readLength_le_recordLength {l : FormatLayout} (hl : l ∈ all) (dims : List ExtraDim) :
    l.readLength dims ≤ l.recordLength dims := by
  cases dims with
  | nil => exact readLength_nil_le_baseSize l hl
  | cons d ds => exact Nat.le_refl _

end FormatLayout

/-- Dimensions without gaps reach as far as their sizes lead. -/
theorem ExtraDim.foldl_limit_contiguous {start most : Nat} (h : start ≤ most)
    (dims : List ExtraDim) :
    ((contiguous start dims).map limit).foldl max most = max most (start + totalSize dims) := by
  induction dims generalizing start most with
  | nil => exact (Nat.max_eq_left h).symm
  | cons d ds ih =>
    have hplace : start + d.size ≤ max most (start + d.size) := Nat.le_max_right _ _
    calc ((contiguous start (d :: ds)).map limit).foldl max most
        = ((contiguous ((start + d.size : Nat) : Int) ds).map limit).foldl max
            (max most (start + d.size)) := rfl
      _ = max (max most (start + d.size)) (start + d.size + totalSize ds) := ih hplace
      _ = max most (start + totalSize (d :: ds)) := by
          rw [totalSize]
          omega

theorem Section.limit_extraDims_contiguous (start : Nat) (d : ExtraDim) (ds : List ExtraDim) :
    (extraDims (ExtraDim.contiguous start (d :: ds))).limit =
      start + ExtraDim.totalSize (d :: ds) := by
  calc (extraDims (ExtraDim.contiguous start (d :: ds))).limit
      = ((ExtraDim.contiguous ((start + d.size : Nat) : Int) ds).map ExtraDim.limit).foldl max
          (max 0 (start + d.size)) := rfl
    _ = max (max 0 (start + d.size)) (start + d.size + ExtraDim.totalSize ds) :=
        ExtraDim.foldl_limit_contiguous (Nat.le_max_right _ _) ds
    _ = start + ExtraDim.totalSize (d :: ds) := by
        rw [ExtraDim.totalSize]
        omega

namespace RecordLayout

theorem keepsLength_pack (l : RecordLayout) (p : Point) : KeepsLength 0 (l.pack p) :=
  (KeepsLength.forM fun s _ ↦ s.keepsLength_pack p).bind fun _ ↦ .pure _

/-- A record is what is packed into zeros. -/
theorem encode_eq_ok {l : RecordLayout} {length : Nat} {p : Point} {record : Bytes} :
    l.encode length p = .ok record ↔
      ∃ configured, l.pack p (List.replicate length 0) = .ok configured record := by
  rw [encode, EStateM.run]
  cases l.pack p (List.replicate length 0) <;> simp

/-- A record has the length that was asked for. -/
theorem length_encode (l : RecordLayout) (length : Nat) (p : Point) :
    Ensures (l.encode length p) fun record ↦ record.length = length := by
  intro record h
  obtain ⟨configured, hpack⟩ := encode_eq_ok.1 h
  rw [l.keepsLength_pack p _ _ _ (Nat.zero_le _) hpack, List.length_replicate]

/-- Where the sections of a format end does not depend on the grid. -/
theorem map_limit_sectionsOf (format : FormatLayout) (scaling : Scaling) (dims : List ExtraDim) :
    (sectionsOf format scaling dims).map Section.limit =
      (sectionsOf format (.replicate .identity) []).map Section.limit ++
        if dims.isEmpty then [] else [(Section.extraDims dims).limit] := by
  simp only [sectionsOf, List.map_append, List.isEmpty_nil, if_true, List.append_nil]
  congr 1
  · cases format.extended <;> rfl
  · cases dims <;> rfl

/-- The fixed sections of a format reach up to the waveform packet or else to the end. -/
theorem foldl_limit_fixed : ∀ format ∈ FormatLayout.all,
    ((sectionsOf format (.replicate .identity) []).map Section.limit).foldl max 0 =
      format.readLength [] := by
  decide

/-- What is read of a record with dimensions placed behind its format. -/
theorem recordLength_ofFormat {number : UInt8} {format : FormatLayout}
    (hformat : FormatLayout.ofNumber? number = some format) (scaling : Scaling)
    (dims : List ExtraDim) :
    (ofFormat number scaling (ExtraDim.contiguous format.baseSize dims)).recordLength =
      format.readLength dims := by
  have hknown := List.mem_of_getElem? hformat
  simp only [ofFormat, hformat, recordLength, sections]
  rw [map_limit_sectionsOf, List.foldl_append, foldl_limit_fixed format hknown,
    ExtraDim.isEmpty_contiguous]
  cases dims with
  | nil => rfl
  | cons d ds =>
    have hextra : (Section.extraDims (ExtraDim.contiguous format.baseSize (d :: ds))).limit =
        format.readLength (d :: ds) := Section.limit_extraDims_contiguous _ d ds
    calc max (format.readLength [])
          (Section.extraDims (ExtraDim.contiguous format.baseSize (d :: ds))).limit
        = max (format.readLength []) (format.readLength (d :: ds)) := by rw [hextra]
      _ = format.readLength (d :: ds) := Nat.max_eq_right (FormatLayout.readLength_nil_le hknown _)

/-- The sections of a format with dimensions behind it end within its records. -/
theorem recordLength_ofFormat_le {number : UInt8} {format : FormatLayout}
    (hformat : FormatLayout.ofNumber? number = some format) (scaling : Scaling)
    (dims : List ExtraDim) :
    (ofFormat number scaling (ExtraDim.contiguous format.baseSize dims)).recordLength ≤
      format.recordLength dims := by
  rw [recordLength_ofFormat hformat]
  exact FormatLayout.readLength_le_recordLength (List.mem_of_getElem? hformat) dims

end RecordLayout

end LasFile
