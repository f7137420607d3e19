import LasFile.Proofs.Record.Fields

/-!
# Which bytes a point is written into

Writing a point puts the same parts over all buffers of one length, whatever they hold. The parts
are the first runs of the layout in their order, and all of them if the point is accepted. Of two
buffers of one length the results are therefore equal, an accepted point leaves the same bytes in
the runs, and nothing outside of them is changed, also where the writing stops in the middle.
-/

namespace LasFile

open Outcome Stateful

/-! ## Steps that overwrite runs -/

/-- The run of a part that begins at a place. -/
def ByteRange.ofPart (part : Nat × Bytes) : ByteRange := ⟨part.1, part.2.length⟩

/-- What a step does to all buffers of one length: it gives one answer and writes the same parts
over them. The parts lie in the buffers and fill runs from the first one on, and all of them if the
step succeeds. -/
structure Overwrites {α : Type} (x : EStateM Error Bytes α) (length : Nat) (runs : List ByteRange)
    (answer : Except Error α) (parts : List (Nat × Bytes)) : Prop where
  apply_eq : ∀ buffer : Bytes, buffer.length = length →
    x buffer = outcome answer (buffer.patch parts)
  within : ∀ part ∈ parts, part.1 + part.2.length ≤ length
  isPrefix : parts.map ByteRange.ofPart <+: runs
  all : ∀ a, answer = .ok a → parts.map ByteRange.ofPart = runs

/-- A step that treats all buffers of one length alike and writes into its runs alone. -/
def WritesInto {α : Type} (length : Nat) (runs : List ByteRange) (x : EStateM Error Bytes α) :
    Prop := ∃ answer parts, Overwrites x length runs answer parts

namespace WritesInto

variable {α β : Type} {length : Nat}

theorem of_answer (answer : Except Error α) {x : EStateM Error Bytes α} {runs : List ByteRange}
    (hx : ∀ buffer : Bytes, buffer.length = length → x buffer = outcome answer buffer)
    (hruns : ∀ a, answer = .ok a → runs = []) : WritesInto length runs x := by
  refine ⟨answer, [], hx, by simp, List.nil_prefix, fun a ha ↦ ?_⟩
  rw [hruns a ha, List.map_nil]

theorem pure (a : α) : WritesInto length [] (pure a) :=
  of_answer (.ok a) (fun _ _ ↦ rfl) fun _ _ ↦ rfl

theorem bind {x : EStateM Error Bytes α} {f : α → EStateM Error Bytes β}
    {first second : List ByteRange} (hx : WritesInto length first x)
    (hf : ∀ a, WritesInto length second (f a)) : WritesInto length (first ++ second) (x >>= f) := by
  obtain ⟨answer, parts, hx⟩ := hx
  cases answer with
  | error e =>
    refine ⟨.error e, parts, fun buffer hbuffer ↦ ?_, hx.within,
      hx.isPrefix.trans (List.prefix_append _ _), by simp⟩
    exact bind_of_error (hx.apply_eq buffer hbuffer) f
  | ok a =>
    obtain ⟨answer, later, hf⟩ := hf a
    have hfirst := hx.all a rfl
    refine ⟨answer, parts ++ later, fun buffer hbuffer ↦ ?_, ?_, ?_, fun b hb ↦ ?_⟩
    · have hlength : (buffer.patch parts).length = length := by
        rw [Bytes.length_patch (hbuffer ▸ hx.within), hbuffer]
      rw [bind_of_ok (hx.apply_eq buffer hbuffer), hf.apply_eq _ hlength, Bytes.patch_append]
    · exact List.forall_mem_append.2 ⟨hx.within, hf.within⟩
    · rw [List.map_append, hfirst]
      exact (List.prefix_append_right_inj _).2 hf.isPrefix
    · rw [List.map_append, hfirst, hf.all b hb]

/-- Steps in a row write into the runs of all of them. -/
theorem forM {ι : Type} {f : ι → EStateM Error Bytes Unit} {runs : ι → List ByteRange}
    {as : List ι} (h : ∀ a ∈ as, WritesInto length (runs a) (f a)) :
    WritesInto length (as.flatMap runs) (as.forM f) := by
  induction as with
  | nil => exact pure ()
  | cons a as ih =>
    obtain ⟨ha, has⟩ := List.forall_mem_cons.1 h
    exact ha.bind fun _ ↦ ih has

end WritesInto

namespace Overwrites

variable {α : Type} {x : EStateM Error Bytes α} {length : Nat} {runs : List ByteRange}
  {answer : Except Error α} {parts : List (Nat × Bytes)} {first second : Bytes} {i : Nat}

theorem length_patch (h : Overwrites x length runs answer parts) (hfirst : first.length = length) :
    (first.patch parts).length = first.length := Bytes.length_patch (hfirst ▸ h.within)

/-- A place outside of the runs is left alone. -/
theorem getElem?_of_outside (h : Overwrites x length runs answer parts)
    (hfirst : first.length = length) (hi : ∀ r ∈ runs, ¬r.Holds i) :
    (first.patch parts)[i]? = first[i]? := by
  apply Bytes.getElem?_patch_of_outside (hfirst ▸ h.within)
  intro part hpart
  have hout := hi _ (h.isPrefix.subset (List.mem_map_of_mem hpart))
  simp only [ByteRange.Holds, ByteRange.ofPart] at hout
  omega

/-- A place in a run is decided by a step that succeeds, whatever was there before. -/
theorem getElem?_of_inside (h : Overwrites x length runs answer parts)
    (hfirst : first.length = length) (hsecond : second.length = length) {a : α}
    (hanswer : answer = .ok a) (hi : ∃ r ∈ runs, r.Holds i) :
    (first.patch parts)[i]? = (second.patch parts)[i]? := by
  obtain ⟨r, hr, hholds⟩ := hi
  rw [← h.all a hanswer] at hr
  obtain ⟨part, hpart, rfl⟩ := List.mem_map.1 hr
  exact Bytes.getElem?_patch_congr (hfirst.trans hsecond.symm) (hfirst ▸ h.within)
    (.inr ⟨part, hpart, hholds⟩)

end Overwrites

/-! ## Slots, sections and layouts -/

/-- A slot that lies in the buffers is written whole or not at all. -/
theorem Slot.writesInto_pack {s : Slot} (hexact : s.Exact) {length : Nat}
    (hfits : s.start + s.width ≤ length) (p : Point) : WritesInto length [s.range] (s.pack p) := by
  cases hencode : s.encode p with
  | error e =>
    refine .of_answer (.error e) (fun buffer _ ↦ ?_) (by simp)
    exact pack_of_part_error (by rw [part, hencode]; rfl) buffer
  | ok bs =>
    have hwidth : bs.length = s.width := hexact p bs hencode
    have hruns : [(s.start, bs)].map ByteRange.ofPart = [s.range] := by
      rw [List.map_singleton, ByteRange.ofPart, hwidth, range]
    refine ⟨.ok (), [(s.start, bs)], fun buffer _ ↦ ?_, ?_, ?_, fun _ _ ↦ ?_⟩
    · exact pack_of_part (by rw [part, hencode]; rfl) buffer
    · rintro _ (_ | ⟨_, ⟨⟩⟩)
      rwa [hwidth]
    · exact hruns ▸ List.prefix_rfl
    · exact hruns

/-- A section writes into its slots, and into none of them if the buffers are too short for it. -/
theorem Section.writesInto_pack (s : Section) (p : Point) (length : Nat) :
    WritesInto length (s.slots.map Slot.range) (s.pack p) := by
  by_cases hroom : s.limit ≤ length
  · have hslots : WritesInto length (s.slots.flatMap fun slot ↦ [slot.range])
        (s.slots.forM (·.pack p)) := by
      apply WritesInto.forM
      intro slot hslot
      exact Slot.writesInto_pack (exact_of_mem_slots hslot)
        (Nat.le_trans (end_le_limit hslot) hroom) p
    obtain ⟨answer, parts, h⟩ := hslots
    rw [← List.map_eq_flatMap] at h
    refine ⟨answer, parts, fun buffer hbuffer ↦ ?_, h.within, h.isPrefix, h.all⟩
    rw [pack_of_room (hbuffer ▸ hroom), h.apply_eq buffer hbuffer]
  · refine .of_answer (.error (.bufferTooSmall s.limit length)) (fun buffer hbuffer ↦ ?_) (by simp)
    rw [pack, get_bind, checkLength, hbuffer, if_pos (Nat.not_le.1 hroom)]
    rfl

namespace RecordLayout

/-- A layout writes into its slots. -/
theorem writesInto_pack (l : RecordLayout) (p : Point) (length : Nat) :
    WritesInto length (l.slots.map Slot.range) (l.pack p) := by
  have hsections : WritesInto length (l.sections.flatMap fun s ↦ s.slots.map Slot.range)
      (l.sections.forM (·.pack p)) := .forM fun s _ ↦ s.writesInto_pack p length
  have hall := hsections.bind fun _ ↦ .pure l.isConfigured
  rwa [← List.map_flatMap, List.append_nil] at hall

/-- Writing a point reads nothing of the buffer and writes nothing outside of the core, the GPS
time, the colours, the near infrared and the extra dimensions. Over two buffers of one length it
gives the same result, an accepted point leaves the same bytes in these runs, and accepted or not
all other bytes stay as they were. -/
theorem pack_frame {number : UInt8} {format : FormatLayout}
    (hformat : FormatLayout.ofNumber? number = some format) (scaling : Scaling)
    (dims : List ExtraDim) (p : Point) {first second : Bytes}
    (hlength : first.length = second.length) :
    ∃ answer after after',
      (ofFormat number scaling dims).pack p first = outcome answer after ∧
      (ofFormat number scaling dims).pack p second = outcome answer after' ∧
      after.length = first.length ∧ after'.length = second.length ∧
      (∀ configured, answer = .ok configured →
        ∀ i, (∃ r ∈ format.ranges ++ dims.map ExtraDim.range, r.Holds i) →
          after[i]? = after'[i]?) ∧
      ∀ i, (¬∃ r ∈ format.ranges ++ dims.map ExtraDim.range, r.Holds i) →
        after[i]? = first[i]? ∧ after'[i]? = second[i]? := by
  obtain ⟨answer, parts, h⟩ := (ofFormat number scaling dims).writesInto_pack p first.length
  have hsecond : second.length = first.length := hlength.symm
  have hruns (i : Nat) : (∃ r ∈ (ofFormat number scaling dims).slots.map Slot.range, r.Holds i) ↔
      ∃ r ∈ format.ranges ++ dims.map ExtraDim.range, r.Holds i := by
    rw [← exists_slot_holds hformat scaling]
    constructor
    · rintro ⟨_, hr, hholds⟩
      obtain ⟨s, hs, rfl⟩ := List.mem_map.1 hr
      exact ⟨s, hs, hholds⟩
    · rintro ⟨s, hs, hholds⟩
      exact ⟨s.range, List.mem_map_of_mem hs, hholds⟩
  refine ⟨answer, first.patch parts, second.patch parts, h.apply_eq first rfl,
    h.apply_eq second hsecond, h.length_patch rfl, h.length_patch hsecond, ?_, ?_⟩
  · intro configured hanswer i hi
    exact h.getElem?_of_inside rfl hsecond hanswer ((hruns i).2 hi)
  · intro i hi
    have houtside : ∀ r ∈ (ofFormat number scaling dims).slots.map Slot.range, ¬r.Holds i := by
      simpa using mt (hruns i).1 hi
    exact ⟨h.getElem?_of_outside rfl houtside, h.getElem?_of_outside hsecond houtside⟩

/-- Records of format 9 with two extra dimensions that overlap, over zeros and over ones. The
waveform packet, the gap behind it and the tail stay as they were, both for a point that is accepted
and for one that is refused by the last dimension. -/
theorem pack_frame_overlapping :
    let dims : List ExtraDim :=
      [.plain "a" (.scalar .double) 60, .plain "b" (.scalar (.unsigned .two)) 66]
    let layout := ofFormat 9 .identity dims
    let p : Point := .set (.set .empty (.user "a") (.float .one)) .gpsTime (.float .one)
    let q : Point := p.set (.user "b") (.unsigned 65536)
    let zeros : Bytes := List.replicate 70 0
    let ones : Bytes := List.replicate 70 255
    (∃ after after', layout.pack p zeros = .ok true after ∧ layout.pack p ones = .ok true after' ∧
      after[29]? = after'[29]? ∧ after[66]? = after'[66]? ∧
      after[30]? = some 0 ∧ after'[30]? = some 255 ∧ after'[59]? = some 255 ∧
      after'[69]? = some 255) ∧
    ∃ e after after', layout.pack q zeros = .error e after ∧ layout.pack q ones = .error e after' ∧
      after[30]? = some 0 ∧ after'[30]? = some 255 ∧ after'[59]? = some 255 := by
  intro dims layout p q zeros ones
  have hformat : FormatLayout.ofNumber? 9 = some (.modern 59 none none (some 30)) := rfl
  have hlength : zeros.length = ones.length := by decide
  have hroom : layout.recordLength ≤ zeros.length := by decide
  constructor
  · obtain ⟨parts, hparts⟩ : ∃ parts, layout.parts p = .ok parts :=
      isSome_toOption.1 (by decide +kernel)
    obtain ⟨answer, after, after', hfirst, hsecond, -, -, hinside, houtside⟩ :=
      pack_frame hformat .identity dims p hlength
    obtain ⟨rfl, -⟩ := outcome_eq_ok.1 (hfirst.symm.trans (pack_of_parts hroom hparts))
    exact ⟨after, after', hfirst, hsecond, hinside true rfl 29 (by decide),
      hinside true rfl 66 (by decide), (houtside 30 (by decide)).1, (houtside 30 (by decide)).2,
      (houtside 59 (by decide)).2, (houtside 69 (by decide)).2⟩
  · obtain ⟨answer, after, after', hfirst, hsecond, -, -, -, houtside⟩ :=
      pack_frame hformat .identity dims q hlength
    cases answer with
    | ok configured =>
      obtain ⟨parts, hparts, -⟩ := (pack_eq_ok hroom).1 hfirst
      have hsome : (layout.parts q).toOption.isSome = true := isSome_toOption.2 ⟨parts, hparts⟩
      exact absurd hsome (by decide +kernel)
    | error e =>
      exact ⟨e, after, after', hfirst, hsecond, (houtside 30 (by decide)).1,
        (houtside 30 (by decide)).2, (houtside 59 (by decide)).2⟩

end RecordLayout

end LasFile
