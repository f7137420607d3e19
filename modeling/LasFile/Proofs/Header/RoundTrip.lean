import LasFile.Header.Codec
import LasFile.Proofs.Byte.Reading

/-!
# Headers read back

A header that was written is read back as `Header.reread` says: as it was, but for its texts, which
are what their fields hold, its size, which is that of its version, and the fields that its version
does not have.
-/

namespace LasFile.Header

open Read

/-- The fields that every version has, as they are read from a written header. -/
def rereadCommon (h : Header) : Header :=
  { blank with
    sourceId := h.sourceId
    encoding := h.encoding
    projectId := h.projectId
    version := h.version
    systemId := FixedText.stored 32 h.systemId
    software := FixedText.stored 32 h.software
    created := h.created
    headerSize := Version.headerSize h.version.minor
    offsetToPoints := h.offsetToPoints
    vlrCount := h.vlrCount
    formatByte := h.formatByte
    recordLength := h.recordLength
    legacyPoints := h.legacyPoints
    legacyByReturn := h.legacyByReturn
    scaling := h.scaling
    max := h.max
    min := h.min }

/-- The header that is read from a written one. -/
def reread (h : Header) : Header :=
  { h.rereadCommon with
    waveformStart := if h.version.hasWaveform then h.waveformStart else 0
    evlrOffset := if h.version.isExtended then h.evlrOffset else 0
    evlrCount := if h.version.isExtended then h.evlrCount else 0
    points := if h.version.isExtended then h.points else h.legacyPoints.toUInt64
    byReturn := if h.version.isExtended then h.byReturn else widened h.legacyByReturn }

@[simp] theorem formatByte_reread (h : Header) : h.reread.formatByte = h.formatByte := rfl

@[simp] theorem headerSize_reread (h : Header) :
    h.reread.headerSize = Version.headerSize h.version.minor := rfl

@[simp] theorem offsetToPoints_reread (h : Header) :
    h.reread.offsetToPoints = h.offsetToPoints := rfl

@[simp] theorem vlrCount_reread (h : Header) : h.reread.vlrCount = h.vlrCount := rfl

@[simp] theorem recordLength_reread (h : Header) : h.reread.recordLength = h.recordLength := rfl

@[simp] theorem scaling_reread (h : Header) : h.reread.scaling = h.scaling := rfl

@[simp] theorem evlrCount_reread (h : Header) :
    h.reread.evlrCount = if h.version.isExtended then h.evlrCount else 0 := rfl

/-! ## Parts -/

variable {order : ByteOrder}

theorem yields_projectId (p : ProjectId) :
    Yields order readProjectId (Item.encodeAll order (projectIdItems p)) p := by
  have hpart : Yields order _ _ p.part4 := yields_times yields_u8 p.part4
  rw [Item.encodeAll_map_u8] at hpart
  exact (yields_u32 p.part1).bind <| (yields_u16 p.part2).bind <| (yields_u16 p.part3).bind <|
    hpart.bind (yields_pure p)

theorem yields_axes (a : Axes Double) :
    Yields order readAxes (Item.encodeAll order (axesItems a)) a :=
  (yields_double a.x).bind <| (yields_double a.y).bind <| (yields_double a.z).bind <| yields_pure a

theorem yields_bounds (max min : Axes Double) :
    Yields order readBounds (Item.encodeAll order (boundsItems max min)) (max, min) :=
  (yields_double max.x).bind <| (yields_double min.x).bind <| (yields_double max.y).bind <|
    (yields_double min.y).bind <| (yields_double max.z).bind <| (yields_double min.z).bind <|
      yields_pure (max, min)

theorem stored_fileSignature : FixedText.stored 4 fileSignature = fileSignature := by decide

theorem yields_common (h : Header) (hmajor : h.version.major = 1) (hminor : h.version.minor ≤ 4) :
    Yields order readCommon (Item.encodeAll order h.commonItems) h.rereadCommon := by
  have hversion : ¬(h.version.major ≠ 1 ∨ 4 < h.version.minor) := by grind
  simp only [commonItems, Item.encodeAll_append, Item.encodeAll_cons, Item.encodeAll_nil,
    List.append_assoc, List.nil_append]
  refine (yields_text fileSignature 4).bind ?_
  refine Yields.ite_pos ?_ stored_fileSignature
  refine (yields_u16 h.sourceId).bind ?_
  refine ((yields_u16 h.encoding.value).map GlobalEncoding.mk).bind ?_
  refine (yields_projectId h.projectId).bind ?_
  refine (yields_u8 h.version.major).bind ?_
  refine (yields_u8 h.version.minor).bind ?_
  refine Yields.ite_neg ?_ hversion
  refine (yields_text h.systemId 32).bind ?_
  refine (yields_text h.software 32).bind ?_
  refine (yields_u16 h.created.day).bind ?_
  refine (yields_u16 h.created.year).bind ?_
  refine (yields_u16 (Version.headerSize h.version.minor)).bind ?_
  refine (yields_u32 h.offsetToPoints).bind ?_
  refine (yields_u32 h.vlrCount).bind ?_
  refine (yields_u8 h.formatByte).bind ?_
  refine (yields_u16 h.recordLength).bind ?_
  refine (yields_u32 h.legacyPoints).bind ?_
  refine (yields_times yields_u32 h.legacyByReturn).bind ?_
  refine (yields_axes (h.scaling.map Transform.scale)).bind ?_
  refine (yields_axes (h.scaling.map Transform.offset)).bind ?_
  rw [← List.append_nil (Item.encodeAll order (boundsItems h.max h.min))]
  refine (yields_bounds h.max h.min).bind ?_
  rw [stored_fileSignature]
  exact yields_pure _

theorem yields_waveform (h : Header) :
    Yields order (if h.version.hasWaveform then Read.u64 else pure 0)
      (Item.encodeAll order (if h.version.hasWaveform then [.u64 h.waveformStart] else []))
      (if h.version.hasWaveform then h.waveformStart else 0) := by
  cases h.version.hasWaveform with
  | true =>
    have hstart : Yields order Read.u64 _ h.waveformStart := yields_u64 h.waveformStart
    simpa using hstart
  | false => exact yields_pure 0

theorem yields_counts (h g : Header) (hversion : g.version = h.version)
    (hpoints : g.legacyPoints = h.legacyPoints) (hreturns : g.legacyByReturn = h.legacyByReturn)
    (hoffset : g.evlrOffset = 0) (hcount : g.evlrCount = 0) :
    Yields order (readCounts g)
      (Item.encodeAll order (if h.version.isExtended then h.extendedItems else []))
      { g with
        evlrOffset := if h.version.isExtended then h.evlrOffset else 0
        evlrCount := if h.version.isExtended then h.evlrCount else 0
        points := if h.version.isExtended then h.points else h.legacyPoints.toUInt64
        byReturn := if h.version.isExtended then h.byReturn else widened h.legacyByReturn } := by
  unfold readCounts
  rw [hversion, hpoints, hreturns]
  cases h.version.isExtended with
  | true =>
    simp only [if_true, extendedItems, Item.encodeAll_append, Item.encodeAll_cons,
      Item.encodeAll_nil, List.append_assoc, List.nil_append]
    refine (yields_u64 h.evlrOffset).bind ?_
    refine (yields_u32 h.evlrCount).bind ?_
    refine (yields_u64 h.points).bind ?_
    rw [← List.append_nil (Item.encodeAll order (h.byReturn.toList.map .u64))]
    exact (yields_times yields_u64 h.byReturn).bind (yields_pure _)
  | false =>
    simp only [Bool.false_eq_true, if_false, ← hoffset, ← hcount]
    exact yields_pure _

/-! ## The whole header -/

theorem encodeAll_items (order : ByteOrder) (h : Header) :
    Item.encodeAll order h.items = Item.encodeAll order h.commonItems ++
      (Item.encodeAll order (if h.version.hasWaveform then [.u64 h.waveformStart] else []) ++
        Item.encodeAll order (if h.version.isExtended then h.extendedItems else [])) := by
  simp only [items, Item.encodeAll_append, List.append_assoc]

/-- A header that stands at the beginning of the source is read from there, wherever the reader was,
and the reader stands behind it. -/
theorem read_items (h : Header) (hmajor : h.version.major = 1) (hminor : h.version.minor ≤ 4)
    {r : ByteReader} {rest : Bytes}
    (hbytes : r.source.bytes = Item.encodeAll r.order h.items ++ rest) :
    read r = .ok h.reread (.between r.order (Item.encodeAll r.order h.items) rest) := by
  have hbody : ∃ body : Read Header, read = (Read.seek 0 >>= fun _ ↦ body) ∧
      Yields r.order body (Item.encodeAll r.order h.items) h.reread := by
    refine ⟨_, rfl, ?_⟩
    rw [encodeAll_items]
    refine (yields_common h hmajor hminor).bind ?_
    refine (yields_waveform h).ite_bind ?_
    rw [← List.append_nil (Item.encodeAll r.order (if h.version.isExtended then _ else _))]
    let g : Header :=
      { h.rereadCommon with
        waveformStart := if h.version.hasWaveform then h.waveformStart else 0 }
    refine (yields_counts h g rfl rfl rfl rfl rfl).bind ?_
    exact (yields_pure h.reread).ite_neg (UInt16.lt_irrefl (Version.headerSize h.version.minor))
  obtain ⟨body, hread, hyields⟩ := hbody
  have hseek : read r = body (.between r.order [] r.source.bytes) := by
    rw [hread]
    rfl
  rw [hseek, hbytes]
  exact hyields [] rest

/-- A written header is found at the beginning of a file whatever stands behind it. -/
theorem decode_encode_append (h : Header) (hmajor : h.version.major = 1)
    (hminor : h.version.minor ≤ 4) (rest : Bytes) : decode (h.encode ++ rest) = .ok h.reread := by
  have hread : read (.ofBytes .little (h.encode ++ rest)) =
      .ok h.reread (.between .little h.encode rest) := read_items h hmajor hminor rfl
  simp only [decode, Read.decode, EStateM.run, hread]

/-! ## Lengths -/

theorem length_commonItems (order : ByteOrder) (h : Header) :
    (Item.encodeAll order h.commonItems).length = 227 := by
  have hreturns := Item.length_encodeAll_map order Item.u32 (fun _ ↦ rfl) h.legacyByReturn.toList
  simp [commonItems, projectIdItems, axesItems, boundsItems, Axes.toList, Item.size, hreturns]

theorem length_extendedItems (order : ByteOrder) (h : Header) :
    (Item.encodeAll order h.extendedItems).length = 140 := by
  have hreturns := Item.length_encodeAll_map order Item.u64 (fun _ ↦ rfl) h.byReturn.toList
  simp [extendedItems, Item.size, hreturns]

/-- A header has the length of its version, whatever its fields hold. -/
theorem length_items (order : ByteOrder) (h : Header) :
    (Item.encodeAll order h.items).length = (Version.headerSize h.version.minor).toNat := by
  rw [encodeAll_items, List.length_append, List.length_append, length_commonItems]
  simp only [Version.hasWaveform, Version.isExtended, Version.headerSize, UInt8.le_iff_toNat_le,
    ← UInt8.toNat_inj, UInt8.reduceToNat]
  by_cases h4 : 4 ≤ h.version.minor.toNat
  · have h3 : 3 ≤ h.version.minor.toNat := by omega
    have h2 : ¬h.version.minor.toNat ≤ 2 := by omega
    have hne : h.version.minor.toNat ≠ 3 := by omega
    simp [h2, h3, h4, hne, Item.size, length_extendedItems]
  · by_cases h3 : 3 ≤ h.version.minor.toNat
    · have heq : h.version.minor.toNat = 3 := by omega
      simp [heq, Item.size]
    · have h2 : h.version.minor.toNat ≤ 2 := by omega
      simp [h2, h3, h4]

theorem length_encode (h : Header) :
    h.encode.length = (Version.headerSize h.version.minor).toNat := length_items .little h

/-! ## What is kept -/

/-- The older counts are followed by ten zeros. -/
theorem widened_eq (counts : Vector UInt32 5) :
    widened counts = counts.map UInt32.toUInt64 ++ Vector.replicate 10 (0 : UInt64) := by
  apply Vector.ext
  intro i hi
  change i < 5 + 10 at hi
  simp only [widened, Vector.getElem_ofFn, List.getElem?_map, Vector.getElem?_toList]
  change _ = (counts.map UInt32.toUInt64 ++ Vector.replicate 10 (0 : UInt64))[i]
  rw [Vector.getElem_append]
  split
  next h => rw [Vector.getElem?_eq_getElem h, Option.map_some, Option.getD_some, Vector.getElem_map]
  next h =>
    rw [Vector.getElem?_eq_none (Nat.not_lt.1 h), Option.map_none, Option.getD_none,
      Vector.getElem_replicate]

theorem ite_hasWaveform {α : Type} (v : Version) (a b : α) :
    (if v.hasWaveform then a else b) = if v.minor < 3 then b else a := by
  simp only [Version.hasWaveform, decide_eq_true_eq, ← UInt8.not_lt, ite_not]

theorem ite_isExtended {α : Type} (v : Version) (a b : α) :
    (if v.isExtended then a else b) = if v.minor < 4 then b else a := by
  simp only [Version.isExtended, decide_eq_true_eq, ← UInt8.not_lt, ite_not]

/-- A header is read as it was written but for its texts, its size, and the fields that its version
does not have. -/
theorem reread_eq (h : Header) : h.reread =
    { h with
      signature := fileSignature
      systemId := FixedText.stored 32 h.systemId
      software := FixedText.stored 32 h.software
      headerSize := Version.headerSize h.version.minor
      waveformStart := if h.version.minor < 3 then 0 else h.waveformStart
      evlrOffset := if h.version.minor < 4 then 0 else h.evlrOffset
      evlrCount := if h.version.minor < 4 then 0 else h.evlrCount
      points := if h.version.minor < 4 then h.legacyPoints.toUInt64 else h.points
      byReturn := if h.version.minor < 4 then
          h.legacyByReturn.map UInt32.toUInt64 ++ Vector.replicate 10 (0 : UInt64)
        else h.byReturn } := by
  simp only [reread, rereadCommon, ite_hasWaveform, ite_isExtended, widened_eq]
  rfl

/-- Writing a header and reading it back, for every header of a version from 1.0 to 1.4 and in
either byte order. It is written with the size of its version. A reader over any bytes that begin
with it gives, wherever it stood, the same header again except that the signature and the size are
those of the version, both texts are cut to what their fields hold, and what a version has no field
for is zero or taken over from the older counts. The reader then stands behind the header. -/
theorem read_of_written {h : Header} (hmajor : h.version.major = 1) (hminor : h.version.minor ≤ 4)
    {r : ByteReader} {rest : Bytes}
    (hbytes : r.source.bytes = Item.encodeAll r.order h.items ++ rest) :
    let size := (Version.headerSize h.version.minor).toNat
    (Item.encodeAll r.order h.items).length = size ∧
      read r = .ok
        { h with
          signature := "LASF"
          systemId := FixedText.stored 32 h.systemId
          software := FixedText.stored 32 h.software
          headerSize := Version.headerSize h.version.minor
          waveformStart := if h.version.minor < 3 then 0 else h.waveformStart
          evlrOffset := if h.version.minor < 4 then 0 else h.evlrOffset
          evlrCount := if h.version.minor < 4 then 0 else h.evlrCount
          points := if h.version.minor < 4 then h.legacyPoints.toUInt64 else h.points
          byReturn := if h.version.minor < 4 then
              h.legacyByReturn.map UInt32.toUInt64 ++ Vector.replicate 10 (0 : UInt64)
            else h.byReturn }
        { r with source := ⟨r.source.bytes, size⟩, pos := size } := by
  intro size
  have hsize : (Item.encodeAll r.order h.items).length = size := length_items r.order h
  refine ⟨hsize, ?_⟩
  rw [read_items h hmajor hminor hbytes, reread_eq, ByteReader.between, hsize, hbytes]
  rfl

/-- A header of version 1.2 whose texts do not fit their fields and that holds more than its version
has fields for. -/
def overfull : Header :=
  { blank with
    systemId := "Befliegung der Gemeinde Nördlich€"
    software := "a\x00b"
    headerSize := 999
    legacyPoints := 3
    legacyByReturn := #v[2, 1, 0, 0, 0]
    waveformStart := 7
    evlrCount := 1
    points := 9 }

/-- A reader that stood past the header gives what the fields of version 1.2 hold. -/
theorem read_of_written_overfull : ∃ g,
    read ⟨.big, ⟨Item.encodeAll .big overfull.items ++ [1, 2, 3], 229⟩, 5⟩ =
      .ok g ⟨.big, ⟨Item.encodeAll .big overfull.items ++ [1, 2, 3], 227⟩, 227⟩ ∧
    g.systemId = "Befliegung der Gemeinde Nördlic" ∧ g.software = "a" ∧ g.headerSize = 227 ∧
    g.waveformStart = 0 ∧ g.evlrCount = 0 ∧ g.points = 3 ∧
    g.byReturn = #v[2, 1, 0, 0, 0, 0, 0, 0, 0, 0, 0, 0, 0, 0, 0] := by
  obtain ⟨-, hread⟩ := read_of_written (h := overfull) (by decide) (by decide)
    (r := ⟨.big, ⟨Item.encodeAll .big overfull.items ++ [1, 2, 3], 229⟩, 5⟩) rfl
  refine ⟨_, hread, ?_, ?_, rfl, rfl, rfl, rfl, ?_⟩
  · decide +kernel
  · decide +kernel
  · decide +kernel

end LasFile.Header
