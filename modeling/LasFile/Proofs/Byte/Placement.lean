import LasFile.Byte.Writer
import LasFile.Proofs.Byte.Patch

/-!
# Parts in their places

What a byte string holds where a part was put, and what a sink holds after writes in a row. A sink
that wrote `content` from the beginning of a memory is `Sink.holding memory content`; further writes
extend the content, and a write at the beginning replaces as many bytes of it.
-/

namespace LasFile

namespace Bytes

/-! ## Parts of byte strings -/

/-- A part is found behind what stands before it. -/
theorem slice_append (front part back : Bytes) :
    slice (front ++ part ++ back) front.length part.length = part := by
  unfold slice
  rw [List.append_assoc, List.drop_left, List.take_left]

/-- The bytes from a place on begin with a part. A part without bytes is held everywhere. -/
def HoldsAt (bs : Bytes) (place : Nat) (part : Bytes) : Prop := bs.slice place part.length = part

instance (bs : Bytes) (place : Nat) (part : Bytes) : Decidable (bs.HoldsAt place part) :=
  inferInstanceAs (Decidable (_ = _))

theorem holdsAt_append (front part back : Bytes) :
    (front ++ part ++ back).HoldsAt front.length part := slice_append front part back

/-- Parts in a row are held one behind the other. -/
theorem HoldsAt.append {bs first second : Bytes} {place : Nat}
    (h : bs.HoldsAt place (first ++ second)) :
    bs.HoldsAt place first ∧ bs.HoldsAt (place + first.length) second := by
  have hboth : slice bs place (first.length + second.length) = first ++ second := by
    rw [← List.length_append]
    exact h
  constructor
  · have hfirst : slice (slice bs place (first.length + second.length)) 0 first.length =
        slice bs place first.length := slice_slice (by omega)
    rw [HoldsAt, ← hfirst, hboth]
    exact List.take_left
  · have hsecond : slice (slice bs place (first.length + second.length)) first.length
        second.length = slice bs (place + first.length) second.length := slice_slice (by omega)
    rw [HoldsAt, ← hsecond, hboth, slice, List.drop_left, List.take_length]

/-- A part that is held and has some bytes lies within the bytes. -/
theorem HoldsAt.le {bs part : Bytes} {place : Nat} (h : bs.HoldsAt place part)
    (hpart : 0 < part.length) : place + part.length ≤ bs.length := by
  have hlength : (bs.slice place part.length).length = part.length := congrArg List.length h
  rw [slice, List.length_take, List.length_drop] at hlength
  omega

/-- Writing behind a front replaces the bytes behind it. -/
theorem overwrite_append (front back part : Bytes) :
    overwrite (front ++ back) front.length part = front ++ part ++ back.drop part.length := by
  have hgap : front.length - (front ++ back).length = 0 := by
    rw [List.length_append]
    omega
  have hback : (front ++ back).drop (front.length + part.length) = back.drop part.length := by
    rw [← List.drop_drop, List.drop_left]
  rw [overwrite, hgap, hback, List.take_left, List.replicate_zero, List.append_nil]

/-- Blocks of one size are cut apart again, whatever follows them. -/
theorem parts_flatten {size : Nat} {blocks : List Bytes} (hsize : ∀ b ∈ blocks, b.length = size)
    (rest : Bytes) : parts size blocks.length (blocks.flatten ++ rest) = blocks := by
  induction blocks with
  | nil => rfl
  | cons b blocks ih =>
    obtain ⟨rfl, hblocks⟩ := List.forall_mem_cons.1 hsize
    rw [List.flatten_cons, List.append_assoc, List.length_cons, parts, List.take_left,
      List.drop_left, ih hblocks]

/-- A block is found behind those in front of it. -/
theorem slice_flatten_take {blocks : List Bytes} {i : Nat} {block : Bytes}
    (h : blocks[i]? = some block) :
    slice blocks.flatten (blocks.take i).flatten.length block.length = block := by
  obtain ⟨hi, rfl⟩ := List.getElem?_eq_some_iff.1 h
  have hflatten : blocks.flatten =
      (blocks.take i).flatten ++ blocks[i] ++ (blocks.drop (i + 1)).flatten := by
    rw [List.append_assoc, ← List.flatten_cons, ← List.drop_eq_getElem_cons hi,
      ← List.flatten_append, List.take_append_drop]
  rw [hflatten]
  exact slice_append _ _ _

theorem length_flatten {size : Nat} {blocks : List Bytes} (hsize : ∀ b ∈ blocks, b.length = size) :
    blocks.flatten.length = blocks.length * size := by
  rw [List.length_flatten, List.map_congr_left hsize, List.map_const', List.sum_replicate_nat]

theorem chunks_flatten {size : Nat} (hpos : 0 < size) {blocks : List Bytes}
    (hsize : ∀ b ∈ blocks, b.length = size) : chunks size blocks.flatten = blocks := by
  have hparts := parts_flatten hsize []
  rw [List.append_nil] at hparts
  rw [chunks, length_flatten hsize, Nat.mul_div_cancel _ hpos, hparts]

/-- A block among blocks of one size begins at its number times that size. -/
theorem slice_flatten {size : Nat} {blocks : List Bytes} (hsize : ∀ b ∈ blocks, b.length = size)
    {i : Nat} {block : Bytes} (hblock : blocks[i]? = some block) (front back : Bytes) :
    slice (front ++ blocks.flatten ++ back) (i * size + front.length) size = block := by
  have hi := Nat.le_of_lt (List.getElem?_eq_some_iff.1 hblock).1
  have hmem : (front :: (blocks ++ [back]))[i + 1]? = some block := by
    rw [List.getElem?_cons_succ, List.getElem?_append_left (List.getElem?_eq_some_iff.1 hblock).1,
      hblock]
  have hbefore : ((front :: (blocks ++ [back])).take (i + 1)).flatten.length =
      i * size + front.length := by
    rw [List.take_succ_cons, List.take_append_of_le_length hi, List.flatten_cons,
      List.length_append, length_flatten fun b hb ↦ hsize b (List.mem_of_mem_take hb),
      List.length_take, Nat.min_eq_left hi, Nat.add_comm]
  have hall : (front :: (blocks ++ [back])).flatten = front ++ blocks.flatten ++ back := by
    rw [List.flatten_cons, List.flatten_append, List.flatten_singleton, List.append_assoc]
  have hplace := slice_flatten_take hmem
  rwa [hbefore, hall, hsize block (List.mem_of_getElem? hblock)] at hplace

/-! ## Parts of one size -/

/-- Parts of one size begin at the multiples of that size. -/
theorem parts_eq_map_range (size count : Nat) (bs : Bytes) :
    parts size count bs = (List.range count).map fun i ↦ slice bs (i * size) size := by
  induction count generalizing bs with
  | zero => rfl
  | succ count ih =>
    have hrest (i : Nat) :
        slice (bs.drop size) (i * size) size = slice bs ((i + 1) * size) size := by
      rw [slice, slice, List.drop_drop, Nat.succ_mul, Nat.add_comm size]
    rw [parts, ih, List.range_succ_eq_map, List.map_cons, List.map_map, Nat.zero_mul]
    congr 1
    apply List.map_congr_left
    intro i _
    exact hrest i

/-- A slice of whole parts is cut into the slices of these parts. -/
theorem chunks_slice {bs : Bytes} {start size count : Nat} (hsize : 0 < size)
    (hend : start + count * size ≤ bs.length) :
    chunks size (bs.slice start (count * size)) =
      (List.range count).map fun i ↦ slice bs (start + i * size) size := by
  rw [chunks, length_slice hend, Nat.mul_div_cancel _ hsize, parts_eq_map_range]
  apply List.map_congr_left
  intro i hi
  apply slice_slice
  calc i * size + size
      = (i + 1) * size := (Nat.succ_mul i size).symm
    _ ≤ count * size := Nat.mul_le_mul_right size (List.mem_range.1 hi)

theorem length_of_mem_chunks {size : Nat} (hsize : 0 < size) {bs part : Bytes}
    (h : part ∈ chunks size bs) : part.length = size := by
  rw [chunks, parts_eq_map_range, List.mem_map] at h
  obtain ⟨i, hi, rfl⟩ := h
  have hend := (Nat.le_div_iff_mul_le hsize).1 (Nat.succ_le_of_lt (List.mem_range.1 hi))
  rw [Nat.succ_mul] at hend
  exact length_slice hend

/-- A part among others of its size begins at its number times that size. -/
theorem getElem?_chunks_eq_some {size : Nat} {bs part : Bytes} {i : Nat} :
    (chunks size bs)[i]? = some part ↔
      i < bs.length / size ∧ slice bs (i * size) size = part := by
  rw [chunks, parts_eq_map_range, List.getElem?_map, Option.map_eq_some_iff]
  constructor
  · rintro ⟨place, hplace, rfl⟩
    obtain ⟨hi, rfl⟩ := List.getElem?_eq_some_iff.1 hplace
    rw [List.length_range] at hi
    rw [List.getElem_range]
    exact ⟨hi, rfl⟩
  · rintro ⟨hi, rfl⟩
    exact ⟨i, List.getElem?_range hi, rfl⟩

theorem parts_append {size count more : Nat} {front : Bytes} (hfront : front.length = count * size)
    (back : Bytes) : parts size (count + more) (front ++ back) =
      parts size count front ++ parts size more back := by
  induction count generalizing front with
  | zero =>
    rw [Nat.zero_mul, List.length_eq_zero_iff] at hfront
    rw [hfront, Nat.zero_add, parts, List.nil_append, List.nil_append]
  | succ count ih =>
    rw [Nat.succ_mul] at hfront
    have hrest : (front.drop size).length = count * size := by
      rw [List.length_drop]
      omega
    rw [Nat.succ_add, parts, parts, List.take_append_of_le_length (by omega),
      List.drop_append_of_le_length (by omega), ih hrest, List.cons_append]

/-- Whole parts are followed by the parts of what follows them. -/
theorem chunks_append {size : Nat} (hsize : 0 < size) {front : Bytes}
    (hfront : front.length % size = 0) (back : Bytes) :
    chunks size (front ++ back) = chunks size front ++ chunks size back := by
  have hwhole : front.length / size * size = front.length :=
    Nat.div_mul_cancel (Nat.dvd_of_mod_eq_zero hfront)
  have hcount : (front ++ back).length / size = front.length / size + back.length / size := by
    rw [List.length_append, ← hwhole, Nat.add_comm, Nat.add_mul_div_right _ _ hsize,
      Nat.mul_div_cancel _ hsize, Nat.add_comm]
  rw [chunks, hcount, parts_append hwhole.symm, chunks, chunks]

/-- Bytes that are no whole part have no parts. -/
theorem chunks_of_lt {size : Nat} {bs : Bytes} (h : bs.length < size) : chunks size bs = [] := by
  rw [chunks, Nat.div_eq_of_lt h, parts]

end Bytes

namespace Sink

/-! ## Writes in a row -/

/-- The sink over some memory after `content` was written from its beginning. -/
def holding (memory content : Bytes) : Sink :=
  ⟨content ++ memory.drop content.length, content.length⟩

@[simp]
theorem bytes_holding (memory content : Bytes) :
    (holding memory content).bytes = content ++ memory.drop content.length := rfl

/-- A sink that was sent to its beginning. -/
theorem seek_zero (s : Sink) : s.seek 0 = holding s.bytes [] := rfl

/-- A write behind what was written extends it. -/
@[simp]
theorem write_holding (memory content part : Bytes) :
    (holding memory content).write part = holding memory (content ++ part) := by
  simp only [holding, write, Bytes.overwrite_append, List.drop_drop, List.length_append]

/-- A write at the beginning replaces as many bytes there. -/
theorem bytes_seek_write_holding {memory front part : Bytes} (hlength : part.length = front.length)
    (rest : Bytes) : (((holding memory (front ++ rest)).seek 0).write part).bytes =
      (holding memory (part ++ rest)).bytes := by
  calc (((holding memory (front ++ rest)).seek 0).write part).bytes
      = (holding (holding memory (front ++ rest)).bytes part).bytes := by
        rw [seek_zero, write_holding, List.nil_append]
    _ = part ++ (front ++ (rest ++ memory.drop (front ++ rest).length)).drop front.length := by
        rw [bytes_holding, bytes_holding, hlength, List.append_assoc]
    _ = part ++ (rest ++ memory.drop (part ++ rest).length) := by
        rw [List.drop_left, List.length_append, List.length_append, hlength]
    _ = (holding memory (part ++ rest)).bytes := by
        rw [bytes_holding, List.append_assoc]

/-- A write at the beginning that is no longer than the front leaves what stands behind it. -/
theorem bytes_seek_write_of_le {memory front part : Bytes} (h : part.length ≤ front.length)
    (rest : Bytes) : (((holding memory (front ++ rest)).seek 0).write part).bytes =
      (holding memory (part ++ front.drop part.length ++ rest)).bytes := by
  have htake : part.length = (front.take part.length).length := by
    rw [List.length_take, Nat.min_eq_left h]
  have hsplit : front ++ rest = front.take part.length ++ (front.drop part.length ++ rest) := by
    rw [← List.append_assoc, List.take_append_drop]
  rw [hsplit, bytes_seek_write_holding htake, List.append_assoc]

end Sink

end LasFile
