import LasFile.Proofs.Byte.Reading
import Mathlib.Data.List.Induction

/-!
# Sequences of typed values

A writer counts the bytes that it appends, and a reader of the same order that reads the types of
the items in sequence gets their values and ends at that count. A read that fails leaves the tracked
position and the position of the source apart; seeking and skipping bring them together again. When
this is done after each read that failed, every read takes the bytes at the tracked position.
-/

namespace LasFile

/-- What a read asks for. Bytes and texts are read with their lengths. -/
inductive Field where
  | u8
  | i8
  | u16
  | u32
  | u64
  | double
  | bytes (length : Nat)
  | text (width : Nat)
  deriving DecidableEq, Repr

/-- What a read gives. -/
inductive Datum where
  | u8 (value : UInt8)
  | i8 (value : Int8)
  | u16 (value : UInt16)
  | u32 (value : UInt32)
  | u64 (value : UInt64)
  | double (value : Double)
  | bytes (value : Bytes)
  | text (value : String)
  deriving DecidableEq

namespace Field

/-- The number of bytes that a read needs. -/
def size : Field → Nat
  | u8 | i8 => 1
  | u16 => 2
  | u32 => 4
  | u64 | double => 8
  | bytes n | text n => n

def read : Field → Read Datum
  | u8 => .u8 <$> Read.u8
  | i8 => .i8 <$> Read.i8
  | u16 => .u16 <$> Read.u16
  | u32 => .u32 <$> Read.u32
  | u64 => .u64 <$> Read.u64
  | double => .double <$> Read.double
  | bytes n => .bytes <$> Read.bytes n
  | text n => .text <$> Read.text n

/-- What some bytes stand for. -/
def value (order : ByteOrder) (bs : Bytes) : Field → Datum
  | u8 => .u8 (.ofNat (order.toNat bs))
  | i8 => .i8 (.ofInt (ByteOrder.ofComplement 1 (order.toNat bs)))
  | u16 => .u16 (.ofNat (order.toNat bs))
  | u32 => .u32 (.ofNat (order.toNat bs))
  | u64 => .u64 (.ofNat (order.toNat bs))
  | double => .double ⟨.ofNat (order.toNat bs)⟩
  | bytes _ => .bytes bs
  | text _ => .text (FixedText.decode bs)

end Field

namespace Item

/-- The read that an item is read back with. -/
def field : Item → Field
  | u8 _ => .u8
  | u16 _ => .u16
  | u32 _ => .u32
  | u64 _ => .u64
  | double _ => .double
  | bytes bs => .bytes bs.length
  | zeros n => .bytes n
  | text _ width => .text width

/-- What an item is read back as. -/
def datum : Item → Datum
  | u8 v => .u8 v
  | u16 v => .u16 v
  | u32 v => .u32 v
  | u64 v => .u64 v
  | double v => .double v
  | bytes bs => .bytes bs
  | zeros n => .bytes (List.replicate n 0)
  | text s width => .text (FixedText.stored width s)

end Item

/-! ## Items written and read back -/

namespace ByteWriter

/-- Items are appended to what was written before, and counted. -/
theorem foldl_put (w : ByteWriter) (items : List Item) : items.foldl put w =
    ⟨w.order, w.bytes ++ Item.encodeAll w.order items,
      w.count + (Item.encodeAll w.order items).length⟩ := by
  induction items generalizing w with
  | nil => simp
  | cons i items ih =>
    rw [List.foldl_cons, ih, put]
    simp [List.append_assoc, Nat.add_assoc]

end ByteWriter

namespace Read

variable {order : ByteOrder}

theorem yields_field (i : Item) : Yields order i.field.read (i.encode order) i.datum := by
  cases i with
  | u8 v => exact (yields_u8 v).map Datum.u8
  | u16 v => exact (yields_u16 v).map Datum.u16
  | u32 v => exact (yields_u32 v).map Datum.u32
  | u64 v => exact (yields_u64 v).map Datum.u64
  | double v => exact (yields_double v).map Datum.double
  | bytes bs => exact (yields_bytes order bs).map Datum.bytes
  | zeros n =>
    have hzeros := yields_bytes order (List.replicate n 0)
    rw [List.length_replicate] at hzeros
    exact hzeros.map Datum.bytes
  | text s width => exact (yields_text s width).map Datum.text

/-- Reads in sequence consume the items that were written. -/
theorem yields_mapM_field (items : List Item) :
    Yields order ((items.map Item.field).mapM Field.read) (Item.encodeAll order items)
      (items.map Item.datum) := by
  induction items with
  | nil => exact yields_pure []
  | cons i items ih =>
    rw [List.map_cons, List.mapM_cons]
    have hrest : Yields order
        ((items.map Item.field).mapM Field.read >>= fun values ↦ pure (i.datum :: values))
        (Item.encodeAll order items ++ []) (i.datum :: items.map Item.datum) :=
      ih.bind (yields_pure _)
    rw [List.append_nil] at hrest
    exact (yields_field i).bind hrest

end Read

/-! ## Operations -/

namespace ByteReader

/-- The reader that a step leaves, whether it fails or not. -/
def after {α : Type} (r : ByteReader) (step : Read α) : ByteReader :=
  match step r with
  | .ok _ s | .error _ s => s

/-- The tracked position is that of the source. -/
def Level (r : ByteReader) : Prop := r.pos = r.source.position

end ByteReader

/-- An operation on a reader. -/
inductive Operation where
  | seek (position : Nat)
  | skip (n : Nat)
  | read (f : Field)
  deriving DecidableEq, Repr

namespace Operation

/-- The reader that an operation leaves. -/
def leave (r : ByteReader) : Operation → ByteReader
  | seek position => r.after (Read.seek position)
  | skip n => r.after (Read.skip n)
  | read f => r.after f.read

/-- The reader that operations in sequence leave. -/
def run (r : ByteReader) (ops : List Operation) : ByteReader := ops.foldl leave r

/-- After each read that fails there is another operation than a read before the next read. -/
def Recovers (r : ByteReader) (ops : List Operation) : Prop :=
  ∀ before f between g rest, ops = before ++ read f :: (between ++ read g :: rest) →
    (∃ e s, f.read (run r before) = .error e s) → ∃ op ∈ between, ∀ h, op ≠ read h

end Operation

/-! ## One operation -/

namespace ByteReader

/-- The bytes from the place of the source on. -/
def remaining (r : ByteReader) : Nat := r.source.bytes.length - r.source.position

/-- How a read ends that makes a value of the next `n` bytes. -/
def taking {α : Type} (r : ByteReader) (n : Nat) (value : ByteOrder → Bytes → α) :
    EStateM.Result Error ByteReader α :=
  if n ≤ r.remaining then
    .ok (value r.order (r.source.bytes.slice r.source.position n))
      ⟨r.order, ⟨r.source.bytes, r.source.position + n⟩, r.pos + n⟩
  else
    .error (.io .unexpectedEof) ⟨r.order, ⟨r.source.bytes, r.source.bytes.length⟩, r.pos⟩

variable {α : Type} {r : ByteReader} {n : Nat} {value : ByteOrder → Bytes → α}

theorem taking_of_le (h : n ≤ r.remaining) : r.taking n value =
    .ok (value r.order (r.source.bytes.slice r.source.position n))
      ⟨r.order, ⟨r.source.bytes, r.source.position + n⟩, r.pos + n⟩ := if_pos h

theorem taking_of_lt (h : r.remaining < n) : r.taking n value =
    .error (.io .unexpectedEof) ⟨r.order, ⟨r.source.bytes, r.source.bytes.length⟩, r.pos⟩ :=
  if_neg (Nat.not_le.2 h)

end ByteReader

namespace Read

variable {α β : Type}

theorem bytes_apply (n : Nat) (r : ByteReader) : Read.bytes n r = r.taking n fun _ bs ↦ bs := by
  have hrest : r.source.rest.length = r.remaining := List.length_drop
  unfold Read.bytes
  rw [Stateful.get_bind]
  simp only [Source.take, ByteReader.taking, hrest]
  split <;> rfl

theorem number_apply (width : Nat) (r : ByteReader) :
    Read.number width r = r.taking width ByteOrder.toNat := by
  have hbytes := bytes_apply width r
  rcases Nat.lt_or_ge r.remaining width with hshort | hroom
  · rw [ByteReader.taking_of_lt hshort] at hbytes ⊢
    rw [Read.number, Stateful.bind_of_error hbytes]
  · rw [ByteReader.taking_of_le hroom] at hbytes ⊢
    rw [Read.number, Stateful.bind_of_ok hbytes, Stateful.get_bind, Stateful.pure_apply]

theorem map_apply {read : Read α} {r : ByteReader} {n : Nat} {value : ByteOrder → Bytes → α}
    (hread : read r = r.taking n value) (g : α → β) :
    (g <$> read) r = r.taking n fun order bs ↦ g (value order bs) := by
  rcases Nat.lt_or_ge r.remaining n with hshort | hroom
  · rw [ByteReader.taking_of_lt hshort] at hread ⊢
    exact Stateful.map_of_error hread g
  · rw [ByteReader.taking_of_le hroom] at hread ⊢
    exact Stateful.map_of_ok hread g

end Read

namespace Field

/-- A read takes as many bytes as it needs and gives what they stand for. -/
theorem read_apply (f : Field) (r : ByteReader) :
    f.read r = r.taking f.size fun order bs ↦ f.value order bs := by
  cases f with
  | u8 => exact Read.map_apply (Read.map_apply (Read.number_apply 1 r) _) Datum.u8
  | i8 => exact Read.map_apply (Read.map_apply (Read.number_apply 1 r) _) Datum.i8
  | u16 => exact Read.map_apply (Read.map_apply (Read.number_apply 2 r) _) Datum.u16
  | u32 => exact Read.map_apply (Read.map_apply (Read.number_apply 4 r) _) Datum.u32
  | u64 => exact Read.map_apply (Read.map_apply (Read.number_apply 8 r) _) Datum.u64
  | double => exact Read.map_apply (Read.map_apply (Read.number_apply 8 r) _) Datum.double
  | bytes n => exact Read.map_apply (Read.bytes_apply n r) Datum.bytes
  | text n => exact Read.map_apply (Read.map_apply (Read.bytes_apply n r) _) Datum.text

/-- A read that finds too few bytes goes to their end and keeps the tracked position. Any other
takes the bytes that it needs and moves behind them. -/
theorem read_cases (f : Field) (r : ByteReader) :
    r.remaining < f.size ∧ f.read r = .error (.io .unexpectedEof)
      ⟨r.order, ⟨r.source.bytes, r.source.bytes.length⟩, r.pos⟩ ∨
    f.size ≤ r.remaining ∧
      f.read r = .ok (f.value r.order (r.source.bytes.slice r.source.position f.size))
        ⟨r.order, ⟨r.source.bytes, r.source.position + f.size⟩, r.pos + f.size⟩ := by
  rw [read_apply]
  rcases Nat.lt_or_ge r.remaining f.size with hshort | hroom
  · exact .inl ⟨hshort, ByteReader.taking_of_lt hshort⟩
  · exact .inr ⟨hroom, ByteReader.taking_of_le hroom⟩

/-- A read fails exactly if the source holds fewer bytes than it needs. -/
theorem fails_iff (f : Field) (r : ByteReader) :
    (∃ e s, f.read r = .error e s) ↔ r.remaining < f.size := by
  rcases f.read_cases r with ⟨hshort, hread⟩ | ⟨hroom, hread⟩
  · exact iff_of_true ⟨_, _, hread⟩ hshort
  · rw [hread]
    exact iff_of_false (by rintro ⟨e, s, ⟨⟩⟩) (Nat.not_lt.2 hroom)

/-- A read that fails leaves the tracked position where it was. -/
theorem pos_of_error {f : Field} {r s : ByteReader} {e : Error} (h : f.read r = .error e s) :
    s.pos = r.pos := by
  rcases f.read_cases r with ⟨-, hread⟩ | ⟨-, hread⟩
  · cases hread.symm.trans h
    rfl
  · cases hread.symm.trans h

/-- A read that succeeds moves behind the bytes that it takes. -/
theorem eq_of_ok {f : Field} {r s : ByteReader} {v : Datum} (h : f.read r = .ok v s) :
    v = f.value r.order (r.source.bytes.slice r.source.position f.size) ∧
      s.pos = r.pos + f.size ∧ s.source.position = r.source.position + f.size := by
  rcases f.read_cases r with ⟨-, hread⟩ | ⟨-, hread⟩
  · cases hread.symm.trans h
  · cases hread.symm.trans h
    exact ⟨rfl, rfl, rfl⟩

end Field

namespace Operation

variable {r : ByteReader}

/-- No operation changes the order or the bytes. -/
theorem leave_source (r : ByteReader) (op : Operation) :
    (leave r op).order = r.order ∧ (leave r op).source.bytes = r.source.bytes := by
  cases op with
  | seek position => exact ⟨rfl, rfl⟩
  | skip n => exact ⟨rfl, rfl⟩
  | read f =>
    rw [leave, ByteReader.after]
    rcases f.read_cases r with ⟨-, hread⟩ | ⟨-, hread⟩
    · rw [hread]
      exact ⟨rfl, rfl⟩
    · rw [hread]
      exact ⟨rfl, rfl⟩

/-- Seeking and skipping place the source where the tracked position is. -/
theorem level_leave_of_ne_read {op : Operation} (h : ∀ f, op ≠ read f) : (leave r op).Level := by
  cases op with
  | seek position => exact rfl
  | skip n => exact rfl
  | read f => exact absurd rfl (h f)

/-- A read that succeeds moves both positions by as much. -/
theorem level_leave_read {f : Field} (hlevel : r.Level) (h : ¬∃ e s, f.read r = .error e s) :
    (leave r (read f)).Level := by
  rw [leave, ByteReader.after]
  cases hread : f.read r with
  | error e s => exact absurd ⟨e, s, hread⟩ h
  | ok v s =>
    obtain ⟨-, hpos, hplace⟩ := Field.eq_of_ok hread
    rw [ByteReader.Level, hpos, hplace, hlevel]

/-! ## Operations in sequence -/

theorem run_source (r : ByteReader) (ops : List Operation) :
    (run r ops).order = r.order ∧ (run r ops).source.bytes = r.source.bytes := by
  induction ops generalizing r with
  | nil => exact ⟨rfl, rfl⟩
  | cons op ops ih =>
    obtain ⟨horder, hbytes⟩ := leave_source r op
    obtain ⟨hlast, hkept⟩ := ih (leave r op)
    exact ⟨hlast.trans horder, hkept.trans hbytes⟩

theorem run_append_singleton (r : ByteReader) (ops : List Operation) (op : Operation) :
    run r (ops ++ [op]) = leave (run r ops) op := by
  rw [run, List.foldl_append, List.foldl_cons, List.foldl_nil, run]

/-- In front of each read the positions are the same. -/
theorem level_run (hlevel : r.Level) {ops : List Operation} (hrecovers : Recovers r ops)
    {before : List Operation} {f : Field} {rest : List Operation}
    (hops : ops = before ++ read f :: rest) : (run r before).Level := by
  -- From the back, as what a read leaves matters for the operation behind it alone.
  induction before using List.reverseRecOn generalizing f rest with
  | nil => exact hlevel
  | append_singleton before op ih =>
    rw [run_append_singleton]
    rw [List.append_assoc, List.singleton_append] at hops
    cases op with
    | seek position => exact level_leave_of_ne_read fun _ ↦ Operation.noConfusion
    | skip n => exact level_leave_of_ne_read fun _ ↦ Operation.noConfusion
    | read g =>
      apply level_leave_read (ih hops)
      intro hfails
      obtain ⟨op, hnone, -⟩ := hrecovers before g [] f rest hops hfails
      cases hnone

end Operation

/-- Items are counted as they are appended, and come back when their types are read in sequence. A
reader of any bytes that seeks or skips after each read that failed, before it reads again, knows
where each read begins, and each read fails exactly for want of bytes and then moves nothing. -/
theorem ByteReader.sequences_agree (order : ByteOrder) :
    (∀ (start : Bytes) (items : List Item), ∃ part,
      items.foldl ByteWriter.put ⟨order, start, 0⟩ = ⟨order, start ++ part, part.length⟩ ∧
      (items.map Item.field).mapM Field.read (.ofBytes order part) =
        .ok (items.map Item.datum) ⟨order, ⟨part, part.length⟩, part.length⟩) ∧
    ∀ (bytes : Bytes) (ops : List Operation), Operation.Recovers (.ofBytes order bytes) ops →
      ∀ before f rest, ops = before ++ .read f :: rest →
      let r := Operation.run (.ofBytes order bytes) before
      r.pos = r.source.position ∧
      ((∃ e s, f.read r = .error e s) ↔ bytes.length - r.pos < f.size) ∧
      (∀ e s, f.read r = .error e s → s.pos = r.pos) ∧
      ∀ v s, f.read r = .ok v s →
        v = f.value order (bytes.slice r.pos f.size) ∧ s.pos = r.pos + f.size := by
  constructor
  · intro start items
    refine ⟨Item.encodeAll order items, ?_, ?_⟩
    · rw [ByteWriter.foldl_put, Nat.zero_add]
    · have hread := (Read.yields_mapM_field items : Read.Yields order _ _ _) [] []
      have hend : ByteReader.between order (Item.encodeAll order items) [] =
          ⟨order, ⟨Item.encodeAll order items, (Item.encodeAll order items).length⟩,
            (Item.encodeAll order items).length⟩ := by
        rw [ByteReader.between, List.append_nil]
      rw [List.append_nil, List.nil_append, hend] at hread
      exact hread
  · intro bytes ops hrecovers before f rest hops r
    obtain ⟨horder, hbytes⟩ := Operation.run_source (.ofBytes order bytes) before
    have hlevel : r.Level := Operation.level_run (r := .ofBytes order bytes) rfl hrecovers hops
    rw [ByteReader.Level] at hlevel
    refine ⟨hlevel, ?_, fun e s ↦ Field.pos_of_error, fun v s hread ↦ ?_⟩
    · rw [Field.fails_iff, ByteReader.remaining, hlevel, hbytes]
      rfl
    · obtain ⟨hvalue, hpos, -⟩ := Field.eq_of_ok hread
      refine ⟨?_, hpos⟩
      rw [hvalue, hlevel, horder, hbytes]
      rfl

/-- A read that failed, skipping from the place where it began, and a read that succeeds there. -/
example : Operation.run (.ofBytes .little [1, 2]) [.read .u32, .skip 1, .read .u8] =
    ⟨.little, ⟨[1, 2], 2⟩, 2⟩ := by decide

end LasFile
