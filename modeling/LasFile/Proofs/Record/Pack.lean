import LasFile.Proofs.Byte.Patch
import LasFile.Proofs.Record.Length

/-!
# Records slot by slot

With room for all sections, reading a record sets the fields of its slots in order, and writing a
point encodes it for every slot and puts the parts over the buffer. A slot that refuses the point is
the only reason left for a failure.
-/

namespace LasFile

open Outcome

/-! ## Points -/

namespace Point

variable {p : Point} {d : Dimension} {v : Value} {fields : List (Dimension × Value)}

theorem number_eq_toDouble (p : Point) (d : Dimension) :
    p.number d = (p.valueOrZero d).toDouble := by
  unfold number valueOrZero
  cases p.get? d with
  | some v => rfl
  | none => decide

theorem setAll_append (p : Point) (first second : List (Dimension × Value)) :
    p.setAll (first ++ second) = (p.setAll first).setAll second := List.foldl_append

/-- A dimension that is not set keeps its value. -/
theorem get?_setAll_of_notMem (h : d ∉ fields.map Prod.fst) :
    (p.setAll fields).get? d = p.get? d := by
  induction fields generalizing p with
  | nil => rfl
  | cons f fields ih =>
    rw [List.map_cons, List.mem_cons, not_or] at h
    have hrest : (p.setAll (f :: fields)).get? d = (p.set f.1 f.2).get? d := ih h.2
    rw [hrest, get?_set, if_neg h.1]

/-- A dimension that is set once has the value that it was set to. -/
theorem get?_setAll_of_mem (hnodup : (fields.map Prod.fst).Nodup) (h : (d, v) ∈ fields) :
    (p.setAll fields).get? d = some v := by
  induction fields generalizing p with
  | nil => cases h
  | cons f fields ih =>
    rw [List.map_cons, List.nodup_cons] at hnodup
    rcases List.mem_cons.1 h with rfl | hmem
    · have hrest : (p.setAll ((d, v) :: fields)).get? d = (p.set d v).get? d :=
        get?_setAll_of_notMem hnodup.1
      rw [hrest, get?_set, if_pos rfl]
    · exact ih hnodup.2 hmem

/-- A dimension that is set has the value that it has if nothing was carried before. -/
theorem get?_setAll (p : Point) (fields : List (Dimension × Value)) (d : Dimension) :
    (p.setAll fields).get? d = ((empty.setAll fields).get? d).or (p.get? d) := by
  induction fields generalizing p with
  | nil => rfl
  | cons f fields ih =>
    calc ((p.set f.1 f.2).setAll fields).get? d
        = ((empty.setAll fields).get? d).or ((p.set f.1 f.2).get? d) := ih _
      _ = ((empty.setAll fields).get? d).or (((empty.set f.1 f.2).get? d).or (p.get? d)) := by
          rw [get?_set, get?_set]
          split <;> rfl
      _ = (((empty.set f.1 f.2).setAll fields).get? d).or (p.get? d) := by
          rw [ih (empty.set f.1 f.2), Option.or_assoc]

/-- A point carries what was set in it. -/
theorem has_setAll_empty (fields : List (Dimension × Value)) (d : Dimension) :
    (empty.setAll fields).has d = true ↔ d ∈ fields.map Prod.fst := by
  induction fields with
  | nil => simp [has, setAll]
  | cons f fields ih =>
    have hfirst : (empty.setAll (f :: fields)).get? d =
        ((empty.setAll fields).get? d).or ((empty.set f.1 f.2).get? d) :=
      get?_setAll (empty.set f.1 f.2) fields d
    rw [has, hfirst, Option.isSome_or, Bool.or_eq_true, get?_set, List.map_cons, List.mem_cons,
      ← ih]
    by_cases hd : d = f.1 <;> simp [hd, has]

end Point

/-! ## Slots -/

namespace Slot

/-- The bytes of a point's slot with the place where they begin. -/
def part (s : Slot) (p : Point) : Except Error (Nat × Bytes) := (s.start, ·) <$> s.encode p

theorem pack_of_part {s : Slot} {p : Point} {part : Nat × Bytes} (h : s.part p = .ok part)
    (buffer : Bytes) : s.pack p buffer = .ok () (buffer.overwrite part.1 part.2) := by
  obtain ⟨bs, hbs, rfl⟩ := map_eq_ok.1 h
  simp only [pack, hbs, Stateful.modify_apply]

theorem pack_of_part_error {s : Slot} {p : Point} {e : Error} (h : s.part p = .error e)
    (buffer : Bytes) : s.pack p buffer = .error e buffer := by
  cases hbs : s.encode p with
  | ok bs =>
    rw [part, hbs] at h
    cases h
  | error e =>
    rw [part, hbs] at h
    cases h
    simp only [pack, hbs]
    rfl

/-- Slots that take a point are written one after the other. -/
theorem forM_pack_ok {slots : List Slot} {p : Point} {parts : List (Nat × Bytes)}
    (h : slots.mapM (·.part p) = .ok parts) (buffer : Bytes) :
    slots.forM (·.pack p) buffer = .ok () (buffer.patch parts) := by
  induction slots generalizing buffer parts with
  | nil =>
    obtain rfl := mapM_nil_eq_ok.1 h
    rfl
  | cons s slots ih =>
    obtain ⟨part, rest, hpart, hrest, rfl⟩ := mapM_cons_eq_ok.1 h
    rw [Stateful.forM_cons_of_ok (fun s : Slot ↦ s.pack p) (pack_of_part hpart buffer)]
    exact ih hrest _

/-- A slot that refuses the point leaves those in front of it written. -/
theorem forM_pack_error {slots : List Slot} {p : Point} {e : Error}
    (h : slots.mapM (·.part p) = .error e) (buffer : Bytes) :
    ∃ rest, slots.forM (·.pack p) buffer = .error e rest := by
  induction slots generalizing buffer with
  | nil => cases h
  | cons s slots ih =>
    rcases mapM_cons_eq_error.1 h with hs | ⟨part, hpart, hslots⟩
    · have hstop := pack_of_part_error hs buffer
      exact ⟨buffer, Stateful.forM_cons_of_error (fun s : Slot ↦ s.pack p) hstop _⟩
    · rw [Stateful.forM_cons_of_ok (fun s : Slot ↦ s.pack p) (pack_of_part hpart buffer)]
      exact ih hslots _

end Slot

/-! ## Sections -/

namespace Section

theorem load_of_room {s : Section} {record : Bytes} (h : s.limit ≤ record.length) (p : Point) :
    s.load record p = .ok () (s.slots.foldl (fun q slot ↦ slot.load record q) p) := by
  simp only [load, checkLength, if_neg (Nat.not_lt.2 h), Stateful.modify_apply]

theorem pack_of_room {s : Section} {buffer : Bytes} (h : s.limit ≤ buffer.length) (p : Point) :
    s.pack p buffer = s.slots.forM (·.pack p) buffer := by
  rw [pack, Stateful.get_bind, checkLength, if_neg (Nat.not_lt.2 h)]

/-- Sections for which there is room are read slot by slot. -/
theorem forM_load {sections : List Section} {record : Bytes}
    (h : ∀ s ∈ sections, s.limit ≤ record.length) (p : Point) :
    sections.forM (·.load record) p = .ok ()
      ((sections.flatMap slots).foldl (fun q slot ↦ slot.load record q) p) := by
  induction sections generalizing p with
  | nil => rfl
  | cons s sections ih =>
    obtain ⟨hs, hsections⟩ := List.forall_mem_cons.1 h
    rw [Stateful.forM_cons_of_ok (fun s : Section ↦ s.load record) (load_of_room hs p),
      List.flatMap_cons, List.foldl_append]
    exact ih hsections _

/-- Sections for which there is room are written slot by slot. -/
theorem forM_pack {sections : List Section} {buffer : Bytes}
    (h : ∀ s ∈ sections, s.limit ≤ buffer.length) (p : Point) :
    sections.forM (·.pack p) buffer = (sections.flatMap slots).forM (·.pack p) buffer := by
  induction sections generalizing buffer with
  | nil => rfl
  | cons s sections ih =>
    obtain ⟨hs, hsections⟩ := List.forall_mem_cons.1 h
    have hpack := pack_of_room hs p
    rw [List.flatMap_cons]
    cases hslots : s.slots.forM (·.pack p) buffer with
    | ok _ between =>
      have hlength : between.length = buffer.length :=
        s.keepsLength_pack p _ _ _ (Nat.zero_le _) (hpack.trans hslots)
      rw [Stateful.forM_cons_of_ok (fun s : Section ↦ s.pack p) (hpack.trans hslots),
        Stateful.forM_append_of_ok _ hslots]
      exact ih (by rwa [hlength])
    | error e rest =>
      rw [Stateful.forM_cons_of_error (fun s : Section ↦ s.pack p) (hpack.trans hslots),
        Stateful.forM_append_of_error _ hslots]

end Section

/-! ## Layouts -/

namespace RecordLayout

/-- The slots of all sections. -/
def slots (l : RecordLayout) : List Slot := l.sections.flatMap Section.slots

/-- The fields of a record. -/
def fields (l : RecordLayout) (record : Bytes) : List (Dimension × Value) :=
  l.slots.flatMap fun s ↦ s.decode (record.slice s.start s.width)

/-- The parts of a point's record. -/
def parts (l : RecordLayout) (p : Point) : Except Error (List (Nat × Bytes)) :=
  l.slots.mapM (·.part p)

variable {l : RecordLayout} {p : Point} {buffer record : Bytes}

theorem limit_le_of_room {n : Nat} (h : l.recordLength ≤ n) : ∀ s ∈ l.sections, s.limit ≤ n :=
  fun _ hs ↦ (foldl_max_le_iff.1 h).2 _ (List.mem_map_of_mem hs)

theorem end_le_of_mem_slots {s : Slot} (hs : s ∈ l.slots) {n : Nat} (h : l.recordLength ≤ n) :
    s.start + s.width ≤ n := by
  obtain ⟨owner, howner, hmem⟩ := List.mem_flatMap.1 hs
  exact Nat.le_trans (Section.end_le_limit hmem) (limit_le_of_room h owner howner)

theorem exact_of_mem_slots {s : Slot} (hs : s ∈ l.slots) : s.Exact := by
  obtain ⟨owner, -, hmem⟩ := List.mem_flatMap.1 hs
  exact Section.exact_of_mem_slots hmem

/-- Reading a record sets all of its fields. -/
theorem load_of_room (h : l.recordLength ≤ record.length) (p : Point) :
    l.load record p = .ok l.isConfigured (p.setAll (l.fields record)) := by
  have hfields : p.setAll (l.fields record) =
      l.slots.foldl (fun q slot ↦ slot.load record q) p := List.foldl_flatMap
  rw [load, Stateful.bind_of_ok (Section.forM_load (limit_le_of_room h) p), hfields]
  rfl

/-- The parts of a record lie in every buffer with room for the layout. -/
theorem end_le_of_mem_parts {parts : List (Nat × Bytes)} (hparts : l.parts p = .ok parts) {n : Nat}
    (h : l.recordLength ≤ n) : ∀ part ∈ parts, part.1 + part.2.length ≤ n := by
  refine forall_mem_of_mapM_eq_ok hparts ?_
  intro s hs part hpart
  obtain ⟨bs, hbs, rfl⟩ := map_eq_ok.1 hpart
  rw [exact_of_mem_slots hs p bs hbs]
  exact end_le_of_mem_slots hs h

/-- Writing a point puts the parts of its record over the buffer. -/
theorem pack_of_parts (h : l.recordLength ≤ buffer.length) {parts : List (Nat × Bytes)}
    (hparts : l.parts p = .ok parts) :
    l.pack p buffer = .ok l.isConfigured (buffer.patch parts) := by
  have hslots := (Section.forM_pack (limit_le_of_room h) p).trans
    (Slot.forM_pack_ok hparts buffer)
  rw [pack, Stateful.bind_of_ok hslots]
  rfl

theorem pack_of_parts_error (h : l.recordLength ≤ buffer.length) {e : Error}
    (hparts : l.parts p = .error e) : ∃ rest, l.pack p buffer = .error e rest := by
  obtain ⟨rest, hrest⟩ := Slot.forM_pack_error hparts buffer
  have hslots := (Section.forM_pack (limit_le_of_room h) p).trans hrest
  exact ⟨rest, by rw [pack, Stateful.bind_of_error hslots]⟩

/-- A point is written exactly if every slot takes it. -/
theorem pack_eq_ok (h : l.recordLength ≤ buffer.length) {configured : Bool} {packed : Bytes} :
    l.pack p buffer = .ok configured packed ↔ ∃ parts, l.parts p = .ok parts ∧
      configured = l.isConfigured ∧ packed = buffer.patch parts := by
  cases hparts : l.parts p with
  | ok parts => simp [pack_of_parts h hparts, eq_comm]
  | error e =>
    obtain ⟨rest, hrest⟩ := pack_of_parts_error h hparts
    simp [hrest]

/-- A slot of a written record took the point. -/
theorem exists_encode_of_pack (h : l.recordLength ≤ buffer.length) {configured : Bool}
    {packed : Bytes} (hpack : l.pack p buffer = .ok configured packed) :
    ∀ s ∈ l.slots, ∃ part, s.encode p = .ok part := by
  intro s hs
  obtain ⟨parts, hparts, -⟩ := (pack_eq_ok h).1 hpack
  obtain ⟨_, hpart⟩ := exists_eq_ok_of_mapM_eq_ok hparts s hs
  obtain ⟨part, hencode, -⟩ := map_eq_ok.1 hpart
  exact ⟨part, hencode⟩

end RecordLayout

end LasFile
