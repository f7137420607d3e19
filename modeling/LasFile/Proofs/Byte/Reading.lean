import LasFile.Byte.Reader
import LasFile.Byte.Writer
import LasFile.Proofs.Stateful
import LasFile.Proofs.Text.Stored

/-!
# Reading what was written

`Read.Yields order read part a` says that a step consumes exactly the bytes `part` and gives `a`,
whatever stands before and behind them. Steps in sequence consume parts in sequence, and each typed
read consumes the bytes of the item of its type. Codecs of records are proved from these two facts
alone.
-/

namespace LasFile

namespace Item

@[simp] theorem encodeAll_nil (order : ByteOrder) : encodeAll order [] = [] := rfl

@[simp] theorem encodeAll_cons (order : ByteOrder) (i : Item) (items : List Item) :
    encodeAll order (i :: items) = i.encode order ++ encodeAll order items := rfl

@[simp] theorem encodeAll_append (order : ByteOrder) (items others : List Item) :
    encodeAll order (items ++ others) = encodeAll order items ++ encodeAll order others := by
  simp [encodeAll]

@[simp] theorem encode_u8 (order : ByteOrder) (b : UInt8) : (u8 b).encode order = [b] := by
  cases order <;> simp [encode, ByteOrder.bytes, ByteOrder.lowFirst]

/-- Bytes in a row are bytes one by one. -/
theorem encodeAll_map_u8 (order : ByteOrder) (bs : Bytes) : encodeAll order (bs.map u8) = bs := by
  induction bs with
  | nil => rfl
  | cons b bs ih => rw [List.map_cons, encodeAll_cons, ih, encode_u8, List.singleton_append]

/-- Items of one size take that size each. -/
theorem length_encodeAll_map {α : Type} (order : ByteOrder) (item : α → Item) {size : Nat}
    (hsize : ∀ a, (item a).size = size) (values : List α) :
    (encodeAll order (values.map item)).length = values.length * size := by
  induction values with
  | nil => simp
  | cons a values ih =>
    simp only [List.map_cons, encodeAll_cons, List.length_append, length_encode, hsize, ih,
      List.length_cons, Nat.succ_mul]
    omega

end Item

/-- A reader between the bytes read and the bytes left. -/
def ByteReader.between (order : ByteOrder) (before after : Bytes) : ByteReader :=
  ⟨order, ⟨before ++ after, before.length⟩, before.length⟩

@[simp] theorem ByteReader.order_between (order : ByteOrder) (before after : Bytes) :
    (between order before after).order = order := rfl

/-- A reader at some place of a byte string. -/
def ByteReader.standing (order : ByteOrder) (bytes : Bytes) (place : Nat) : ByteReader :=
  ⟨order, ⟨bytes, place⟩, place⟩

namespace Read

variable {α β : Type} {order : ByteOrder}

/-- A step that consumes `part` and gives `a`. -/
def Yields (order : ByteOrder) (read : Read α) (part : Bytes) (a : α) : Prop :=
  ∀ before after : Bytes, read (.between order before (part ++ after)) =
    .ok a (.between order (before ++ part) after)

/-! ## Steps in sequence -/

theorem yields_pure (a : α) : Yields order (pure a) [] a := by
  intro before after
  rw [List.nil_append, List.append_nil]
  rfl

theorem Yields.bind {read : Read α} {next : α → Read β} {part rest : Bytes} {a : α} {b : β}
    (hread : Yields order read part a) (hnext : Yields order (next a) rest b) :
    Yields order (read >>= next) (part ++ rest) b := by
  intro before after
  rw [List.append_assoc, Stateful.bind_of_ok (hread before (rest ++ after)),
    hnext (before ++ part) after, List.append_assoc]

theorem Yields.map {read : Read α} {part : Bytes} {a : α} (hread : Yields order read part a)
    (f : α → β) : Yields order (f <$> read) part (f a) := fun before after ↦
  Stateful.map_of_ok (hread before after) f

/-- A step chosen by a condition, with the steps behind it in both branches. -/
theorem Yields.ite_bind {c : Prop} [Decidable c] {read other : Read α} {next : α → Read β}
    {part rest : Bytes} {a : α} {b : β} (hread : Yields order (if c then read else other) part a)
    (hnext : Yields order (next a) rest b) :
    Yields order (if c then read >>= next else other >>= next) (part ++ rest) b := by
  split at hread <;> rename_i hc
  · exact (if_pos hc).symm ▸ hread.bind hnext
  · exact (if_neg hc).symm ▸ hread.bind hnext

theorem Yields.ite_pos {c : Prop} [Decidable c] {read other : Read α} {part : Bytes} {a : α}
    (hread : Yields order read part a) (hc : c) :
    Yields order (if c then read else other) part a := by
  rwa [if_pos hc]

theorem Yields.ite_neg {c : Prop} [Decidable c] {read other : Read α} {part : Bytes} {a : α}
    (hread : Yields order read part a) (hc : ¬c) :
    Yields order (if c then other else read) part a := by
  rwa [if_neg hc]

/-- What a step consumes at the beginning of some bytes. -/
theorem Yields.decode {read : Read α} {part : Bytes} {a : α} (hread : Yields .little read part a)
    (rest : Bytes) : Read.decode read (part ++ rest) = .ok a := by
  have h := hread [] rest
  have hstart : ByteReader.ofBytes .little (part ++ rest) =
      .between .little [] (part ++ rest) := rfl
  simp only [Read.decode, EStateM.run, hstart, h]

/-! ## Typed reads -/

theorem yields_bytes (order : ByteOrder) (part : Bytes) :
    Yields order (Read.bytes part.length) part part := by
  intro before after
  unfold Read.bytes
  rw [Stateful.get_bind]
  simp [ByteReader.between, Source.take, Source.rest]

theorem yields_number (order : ByteOrder) (width n : Nat) :
    Yields order (Read.number width) (order.bytes width n) (n % ByteOrder.capacity width) := by
  have h : Yields order (Read.bytes width) (order.bytes width n) (order.bytes width n) := by
    simpa using yields_bytes order (order.bytes width n)
  intro before after
  rw [Read.number, Stateful.bind_of_ok (h before after), Stateful.get_bind,
    ByteReader.order_between, ByteOrder.toNat_bytes, Stateful.pure_apply]

/-- A number that fits its width, taken as a value of some type. -/
theorem yields_of_lt {width n : Nat} (hn : n < ByteOrder.capacity width) {f : Nat → α} {a : α}
    (ha : f n = a) : Yields order (f <$> Read.number width) (order.bytes width n) a := by
  have h := (yields_number order width n).map f
  rwa [Nat.mod_eq_of_lt hn, ha] at h

theorem yields_u8 (v : UInt8) : Yields order Read.u8 ((Item.u8 v).encode order) v :=
  yields_of_lt v.toNat_lt UInt8.ofNat_toNat

theorem yields_u16 (v : UInt16) : Yields order Read.u16 ((Item.u16 v).encode order) v :=
  yields_of_lt v.toNat_lt UInt16.ofNat_toNat

theorem yields_u32 (v : UInt32) : Yields order Read.u32 ((Item.u32 v).encode order) v :=
  yields_of_lt v.toNat_lt UInt32.ofNat_toNat

theorem yields_u64 (v : UInt64) : Yields order Read.u64 ((Item.u64 v).encode order) v :=
  yields_of_lt v.toNat_lt UInt64.ofNat_toNat

theorem yields_double (v : Double) : Yields order Read.double ((Item.double v).encode order) v :=
  yields_of_lt v.bits.toNat_lt (congrArg Double.mk UInt64.ofNat_toNat)

/-- A text field gives what it holds of the text. -/
theorem yields_text (s : String) (width : Nat) :
    Yields order (Read.text width) ((Item.text s width).encode order)
      (FixedText.stored width s) := by
  have h := (yields_bytes order (FixedText.encode width s)).map FixedText.decode
  rwa [FixedText.length_encode, FixedText.decode_encode] at h

/-- Bytes that are left out. -/
theorem yields_skip (part : Bytes) : Yields order (Read.skip part.length) part () :=
  fun before after ↦ by simp [Read.skip, Read.seek, ByteReader.between]

/-- Reads of one kind consume the items of their values in order. -/
theorem yields_times {read : Read α} {item : α → Item}
    (hread : ∀ v, Yields order read ((item v).encode order) v) {n : Nat} (values : Vector α n) :
    Yields order (Read.times read n) (Item.encodeAll order (values.toList.map item)) values := by
  induction n with
  | zero =>
    obtain rfl : values = #v[] := Vector.eq_empty
    exact yields_pure _
  | succ n ih =>
    obtain ⟨before, last, rfl⟩ := values.exists_push
    have hlast : Yields order (read >>= fun v ↦ pure (before.push v)) _ (before.push last) :=
      (hread last).bind (yields_pure _)
    have h : Yields order (Read.times read (n + 1)) _ _ := (ih before).bind hlast
    simpa [Vector.toList_push] using h

/-! ## Reads of any bytes -/

/-- A step that takes the next `size` bytes and gives `value` of them, or that fails because there
are not so many. -/
def Takes (order : ByteOrder) (read : Read α) (size : Nat) (value : Bytes → α) : Prop :=
  ∀ (bs : Bytes) (place : Nat),
    (place + size ≤ bs.length → read (.standing order bs place) =
      .ok (value (bs.slice place size)) (.standing order bs (place + size))) ∧
    (bs.length < place + size →
      ∃ r, read (.standing order bs place) = .error (.io .unexpectedEof) r)

theorem takes_bytes (order : ByteOrder) {size : Nat} (hsize : 0 < size) :
    Takes order (Read.bytes size) size id := by
  intro bs place
  have hrest : (Source.rest ⟨bs, place⟩).length = bs.length - place := List.length_drop
  constructor
  · intro hroom
    have htake : Source.take ⟨bs, place⟩ size = (some (bs.slice place size), ⟨bs, place + size⟩) :=
      if_pos (by omega)
    unfold Read.bytes
    rw [Stateful.get_bind]
    simp only [ByteReader.standing, htake]
    rfl
  · intro hshort
    have htake : Source.take ⟨bs, place⟩ size = (none, ⟨bs, bs.length⟩) :=
      if_neg (by omega)
    unfold Read.bytes
    rw [Stateful.get_bind]
    simp only [ByteReader.standing, htake]
    exact ⟨_, rfl⟩

theorem Takes.map {read : Read α} {size : Nat} {value : Bytes → α}
    (hread : Takes order read size value) (f : α → β) :
    Takes order (f <$> read) size (f ∘ value) := by
  intro bs place
  constructor
  · intro hroom
    exact Stateful.map_of_ok ((hread bs place).1 hroom) f
  · intro hshort
    obtain ⟨r, herror⟩ := (hread bs place).2 hshort
    exact ⟨r, Stateful.map_of_error herror f⟩

theorem takes_number (order : ByteOrder) {width : Nat} (hwidth : 0 < width) :
    Takes order (Read.number width) width order.toNat := by
  intro bs place
  constructor
  · intro hroom
    rw [Read.number, Stateful.bind_of_ok ((takes_bytes order hwidth bs place).1 hroom)]
    rfl
  · intro hshort
    obtain ⟨r, herror⟩ := (takes_bytes order hwidth bs place).2 hshort
    exact ⟨r, by rw [Read.number, Stateful.bind_of_error herror]⟩

theorem takes_u8 (order : ByteOrder) : Takes order Read.u8 1 (.ofNat ∘ order.toNat) :=
  (takes_number order (by decide)).map _

/-- A single byte is read as it is. -/
theorem ofNat_slice_one (order : ByteOrder) {bs : Bytes} {place : Nat} (h : place < bs.length) :
    UInt8.ofNat (order.toNat (bs.slice place 1)) = bs.getD place 0 := by
  have hpart : bs.slice place 1 = [bs[place]] := by
    rw [Bytes.slice, List.drop_eq_getElem_cons h, List.take_succ_cons, List.take_zero]
  rw [hpart, List.getD_eq_getElem?_getD, List.getElem?_eq_getElem h]
  cases order <;> simp [ByteOrder.toNat, ByteOrder.ofLowFirst]

theorem takes_u16 (order : ByteOrder) : Takes order Read.u16 2 (.ofNat ∘ order.toNat) :=
  (takes_number order (by decide)).map _

theorem takes_double (order : ByteOrder) :
    Takes order Read.double 8 fun bs ↦ ⟨.ofNat (order.toNat bs)⟩ :=
  (takes_number order (by decide)).map _

theorem takes_text (order : ByteOrder) {width : Nat} (hwidth : 0 < width) :
    Takes order (Read.text width) width FixedText.decode :=
  (takes_bytes order hwidth).map _

theorem decode_of_ok {read : Read α} {bs : Bytes} {a : α} {r : ByteReader}
    (h : read (.standing .little bs 0) = .ok a r) : Read.decode read bs = .ok a := by
  have hstart : ByteReader.ofBytes .little bs = .standing .little bs 0 := rfl
  simp only [Read.decode, EStateM.run, hstart, h]

theorem decode_of_error {read : Read α} {bs : Bytes} {e : Error} {r : ByteReader}
    (h : read (.standing .little bs 0) = .error e r) : Read.decode read bs = .error e := by
  have hstart : ByteReader.ofBytes .little bs = .standing .little bs 0 := rfl
  simp only [Read.decode, EStateM.run, hstart, h]

theorem skip_standing (n : Nat) (bs : Bytes) (place : Nat) :
    Read.skip n (.standing order bs place) = .ok () (.standing order bs (place + n)) := rfl

/-- A step in front of others, where there are enough bytes for it. -/
theorem Takes.bind_of_le {read : Read α} {size : Nat} {value : Bytes → α}
    (hread : Takes order read size value) {bs : Bytes} {place : Nat}
    (hroom : place + size ≤ bs.length) (next : α → Read β) :
    (read >>= next) (.standing order bs place) =
      next (value (bs.slice place size)) (.standing order bs (place + size)) :=
  Stateful.bind_of_ok ((hread bs place).1 hroom) next

/-- Reads of one kind in a row, where there are enough bytes for all of them. -/
theorem Takes.exists_times {read : Read α} {size : Nat} {value : Bytes → α}
    (hread : Takes order read size value) {bs : Bytes} {place n : Nat}
    (hroom : place + n * size ≤ bs.length) : ∃ values,
      Read.times read n (.standing order bs place) =
        .ok values (.standing order bs (place + n * size)) := by
  induction n with
  | zero =>
    rw [Nat.zero_mul]
    exact ⟨_, rfl⟩
  | succ n ih =>
    rw [Nat.succ_mul, ← Nat.add_assoc] at hroom ⊢
    obtain ⟨values, hvalues⟩ := ih (by omega)
    refine ⟨values.push (value (bs.slice (place + n * size) size)), ?_⟩
    rw [Read.times, Stateful.bind_of_ok hvalues, hread.bind_of_le hroom]
    rfl

/-- Steps run out of bytes if those behind the first one do. -/
theorem Takes.bind_short {read : Read α} {size : Nat} {value : Bytes → α}
    (hread : Takes order read size value) {bs : Bytes} {place : Nat} {next : α → Read β}
    (hnext : place + size ≤ bs.length → ∃ r, next (value (bs.slice place size))
      (.standing order bs (place + size)) = .error (.io .unexpectedEof) r) :
    ∃ r, (read >>= next) (.standing order bs place) = .error (.io .unexpectedEof) r := by
  rcases Nat.lt_or_ge bs.length (place + size) with hshort | hroom
  · obtain ⟨r, herror⟩ := (hread bs place).2 hshort
    exact ⟨r, Stateful.bind_of_error herror next⟩
  · rw [hread.bind_of_le hroom]
    exact hnext hroom

end Read

end LasFile
