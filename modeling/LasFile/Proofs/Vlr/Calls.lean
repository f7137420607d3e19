import LasFile.Proofs.Byte.Reading
import LasFile.Vlr.Catalog

/-!
# Calls of a load

A load asks its range reader for the headers of the records, one after the other, and for nothing
else. An answer either states where its record lies and where the next header stands, or it is the
last one. What the load gives depends on the answers alone: it lists the records of all calls if
none of them is faulty, and otherwise reports the fault and leaves an empty catalog.
-/

namespace LasFile

open Read

/-! ## Headers of any bytes -/

namespace Catalog

variable (kind : VlrKind) {header : Bytes}

/-- Reading a header needs all of its bytes. -/
theorem decode_readHeader_of_short (hshort : header.length < kind.headerSize) :
    Read.decode (readHeader kind) header = .error (.io .unexpectedEof) := by
  have hwidth : 0 < kind.lengthWidth := by cases kind <;> decide
  have hlast : header.length < 51 + kind.lengthWidth + 1 := by cases kind <;> exact hshort
  have hfails : ∃ r, readHeader kind (.standing .little header 0) =
      .error (.io .unexpectedEof) r := by
    rw [readHeader, Stateful.bind_of_ok (skip_standing 2 header 0)]
    refine (takes_text .little (by decide)).bind_short fun _ ↦ ?_
    refine (takes_u16 .little).bind_short fun _ ↦ ?_
    refine (takes_number .little hwidth).bind_short fun _ ↦ ?_
    rw [Stateful.bind_of_ok (skip_standing _ header _)]
    refine (takes_u8 .little).bind_short fun hroom ↦ ?_
    simp only [Vlr.userIdWidth, Vlr.descriptionWidth] at hroom
    omega
  obtain ⟨r, herror⟩ := hfails
  exact decode_of_error herror

/-- Enough bytes give the user, the number and the length that stand in their places. -/
theorem decode_readHeader_of_le (hroom : kind.headerSize ≤ header.length) :
    Read.decode (readHeader kind) header =
      .ok (FixedText.decode (header.slice 2 Vlr.userIdWidth),
        .ofNat (ByteOrder.little.toNat (header.slice 18 2)),
        ByteOrder.little.toNat (header.slice 20 kind.lengthWidth)) := by
  have hwidth : 0 < kind.lengthWidth := by cases kind <;> decide
  have hlast : 51 + kind.lengthWidth + 1 ≤ header.length := by cases kind <;> exact hroom
  have hread : ∃ r, readHeader kind (.standing .little header 0) =
      .ok (FixedText.decode (header.slice 2 Vlr.userIdWidth),
        .ofNat (ByteOrder.little.toNat (header.slice 18 2)),
        ByteOrder.little.toNat (header.slice 20 kind.lengthWidth)) r := by
    rw [readHeader, Stateful.bind_of_ok (skip_standing 2 header 0),
      (takes_text .little (by decide)).bind_of_le (by simp only [Vlr.userIdWidth]; omega),
      (takes_u16 .little).bind_of_le (by simp only [Vlr.userIdWidth]; omega),
      (takes_number .little hwidth).bind_of_le (by simp only [Vlr.userIdWidth]; omega),
      Stateful.bind_of_ok (skip_standing _ header _),
      (takes_u8 .little).bind_of_le (by simp only [Vlr.userIdWidth, Vlr.descriptionWidth]; omega)]
    exact ⟨_, rfl⟩
  obtain ⟨r, hr⟩ := hread
  exact decode_of_ok hr

end Catalog

/-! ## Calls -/

/-- One call of a range reader that asks for the header of a record. -/
structure HeaderCall where
  kind : VlrKind
  /-- The place asked for. -/
  position : Nat
  /-- What the range reader gave back, which may be too few or too many bytes. -/
  answer : Except Error Bytes

namespace HeaderCall

/-- The place and the number of bytes asked for. -/
def request (call : HeaderCall) : Nat × Nat := (call.position, call.kind.headerSize)

/-- The bytes of the answer. -/
def header (call : HeaderCall) : Bytes :=
  match call.answer with
  | .ok header => header
  | .error _ => []

/-- The record that the answer states. -/
def entry (call : HeaderCall) : VlrEntry where
  userId := FixedText.decode (call.header.slice 2 Vlr.userIdWidth)
  recordId := .ofNat (ByteOrder.little.toNat (call.header.slice 18 2))
  offset := call.position + call.kind.headerSize
  length := ByteOrder.little.toNat (call.header.slice 20 call.kind.lengthWidth)

/-- The place behind the payload, where the next header stands. -/
def next (call : HeaderCall) : Nat := call.entry.offset + call.entry.length

/-- The answer has a whole header, and the record ends at a place. -/
structure Sound (call : HeaderCall) : Prop where
  answered : ∃ header, call.answer = .ok header ∧ call.kind.headerSize ≤ header.length
  ends : call.next < UInt64.size

/-- What is wrong with a call: the failure of the range reader, a header that breaks off, or a
record that reaches past all places. -/
def fault (call : HeaderCall) : Option Error :=
  match call.answer with
  | .error e => some e
  | .ok header =>
    if header.length < call.kind.headerSize then some (.io .unexpectedEof)
    else if UInt64.size ≤ call.entry.offset then
      some (.file (.offsetOverflow call.kind.headerSize call.position))
    else if UInt64.size ≤ call.next then
      some (.file (.offsetOverflow call.entry.length call.entry.offset))
    else none

/-- Nothing is wrong with a sound call only. -/
theorem fault_eq_none_iff {call : HeaderCall} : call.fault = none ↔ call.Sound := by
  cases hanswer : call.answer with
  | error e =>
    have hfault : call.fault = some e := by simp only [fault, hanswer]
    constructor
    · intro hnone
      cases hfault.symm.trans hnone
    · intro hsound
      obtain ⟨header, hheader, -⟩ := hsound.answered
      cases hanswer.symm.trans hheader
  | ok header =>
    have hle : call.entry.offset ≤ call.next := Nat.le_add_right _ _
    simp only [fault, hanswer]
    constructor
    · intro hnone
      split at hnone
      · cases hnone
      · split at hnone
        · cases hnone
        · split at hnone
          · cases hnone
          · exact ⟨⟨header, hanswer, by omega⟩, by omega⟩
    · intro hsound
      obtain ⟨_, hheader, hroom⟩ := hsound.answered
      cases hanswer.symm.trans hheader
      have hends := hsound.ends
      rw [if_neg (by omega), if_neg (by omega), if_neg (by omega)]

/-- The range reader gave the answer in one state and left another one. -/
def Made {σ : Type} (range : RangeReader σ) (s : σ) (call : HeaderCall) (t : σ) : Prop :=
  range call.position call.kind.headerSize s =
    match call.answer with
    | .ok header => .ok header t
    | .error e => .error e t

end HeaderCall

namespace Catalog

open HeaderCall

theorem advance_of_lt {position length : Nat} (h : position + length < UInt64.size) :
    advance position length = .ok (position + length) := if_pos h

theorem advance_of_le {position length : Nat} (h : UInt64.size ≤ position + length) :
    advance position length = .error (.file (.offsetOverflow length position)) :=
  if_neg (Nat.not_lt.2 h)

/-- Enough bytes state a record, if its payload has a place. -/
theorem decodeHeader_answer {call : HeaderCall} {header : Bytes}
    (hanswer : call.answer = .ok header) (hroom : call.kind.headerSize ≤ header.length)
    (hoffset : call.entry.offset < UInt64.size) :
    decodeHeader call.kind call.position header = .ok call.entry := by
  have hheader : call.header = header := by rw [HeaderCall.header, hanswer]
  have hplace : advance call.position call.kind.headerSize = .ok call.entry.offset :=
    advance_of_lt hoffset
  rw [decodeHeader, decode_readHeader_of_le call.kind hroom, ← hheader]
  simp only [Bind.bind, Except.bind, hplace]
  rfl

/-- A step reads the record that the answer states, or stops at the fault. -/
theorem step_answer {call : HeaderCall} {header : Bytes} (hanswer : call.answer = .ok header) :
    step call.kind call.position header =
      match call.fault with
      | none => .ok (call.entry, call.next)
      | some e => .error e := by
  simp only [fault, hanswer]
  rcases Nat.lt_or_ge header.length call.kind.headerSize with hshort | hroom
  · rw [if_pos hshort, step, decodeHeader, decode_readHeader_of_short call.kind hshort]
    rfl
  rw [if_neg (Nat.not_lt.2 hroom)]
  rcases Nat.lt_or_ge call.entry.offset UInt64.size with hoffset | hoffset
  · have hentry := decodeHeader_answer hanswer hroom hoffset
    rw [if_neg (Nat.not_le.2 hoffset)]
    rcases Nat.lt_or_ge call.next UInt64.size with hnext | hnext
    · have hbehind : advance call.entry.offset call.entry.length = .ok call.next :=
        advance_of_lt hnext
      rw [if_neg (Nat.not_le.2 hnext)]
      simp only [step, hentry, hbehind, Bind.bind, Except.bind]
      rfl
    · have hbehind := advance_of_le hnext
      rw [if_pos hnext]
      simp only [step, hentry, hbehind, Bind.bind, Except.bind]
  · have hpayload : advance call.position call.kind.headerSize = _ := advance_of_le hoffset
    rw [if_pos hoffset, step, decodeHeader, decode_readHeader_of_le call.kind hroom]
    simp only [Bind.bind, Except.bind, hpayload]

/-! ## Walks -/

variable {σ : Type} {range : RangeReader σ}

/-- A faulty call ends the walk. -/
theorem walk_of_fault {call : HeaderCall} {s t : σ} {e : Error} (hmade : call.Made range s t)
    (hfault : call.fault = some e) (count : Nat) :
    walk range call.kind (count + 1) call.position s = .error e t := by
  rw [walk]
  rw [Made] at hmade
  cases hanswer : call.answer with
  | error e' =>
    have hfirst : call.fault = some e' := by simp only [fault, hanswer]
    rw [hanswer] at hmade
    cases hfirst.symm.trans hfault
    exact Stateful.bind_of_error hmade _
  | ok header =>
    rw [hanswer] at hmade
    rw [Stateful.bind_of_ok hmade]
    simp only [step_answer hanswer, hfault]
    rfl

/-- A sound call lists its record, and the walk goes on behind it. -/
theorem walk_of_sound {call : HeaderCall} {s t : σ} (hmade : call.Made range s t)
    (hsound : call.Sound) (count : Nat) :
    walk range call.kind (count + 1) call.position s =
      ((call.entry :: ·) <$> walk range call.kind count call.next) t := by
  obtain ⟨header, hanswer, -⟩ := hsound.answered
  rw [Made, hanswer] at hmade
  rw [walk, Stateful.bind_of_ok hmade]
  simp only [step_answer hanswer, fault_eq_none_iff.2 hsound]
  rfl

/-- Calls for headers of one kind, the first one at a position and each of the others where the
record before it ends. -/
def Follows (kind : VlrKind) : Nat → List HeaderCall → Prop
  | _, [] => True
  | position, call :: calls =>
    call.kind = kind ∧ call.position = position ∧ Follows kind call.next calls

/-- The range reader gave all answers, in order, on its way from one state to another. -/
def Answered (range : RangeReader σ) : σ → List HeaderCall → σ → Prop
  | s, [], last => s = last
  | s, call :: calls, last => ∃ t, call.Made range s t ∧ Answered range t calls last

theorem Answered.append {s t last : σ} {calls others : List HeaderCall}
    (hcalls : Answered range s calls t) (hothers : Answered range t others last) :
    Answered range s (calls ++ others) last := by
  induction calls generalizing s with
  | nil =>
    obtain rfl := hcalls
    exact hothers
  | cons call calls ih =>
    obtain ⟨u, hmade, hrest⟩ := hcalls
    exact ⟨u, hmade, ih hrest⟩

/-- A range reader that writes down what it is asked for. -/
def recording (range : RangeReader σ) : RangeReader (σ × List (Nat × Nat)) :=
  fun offset length (s, log) ↦
    match range offset length s with
    | .ok bs t => .ok bs (t, log ++ [(offset, length)])
    | .error e t => .error e (t, log ++ [(offset, length)])

theorem made_recording {call : HeaderCall} {s t : σ} (hmade : call.Made range s t)
    (log : List (Nat × Nat)) :
    call.Made (recording range) (s, log) (t, log ++ [call.request]) := by
  rw [Made] at hmade ⊢
  rw [recording, hmade]
  cases call.answer <;> rfl

/-- The calls of a walk over `count` records from a position on, which take the range reader from
one state to another, and the fault that ends it, if one does. -/
inductive Walked (range : RangeReader σ) (kind : VlrKind) :
    (count position : Nat) → σ → List HeaderCall → σ → Option Error → Prop
  | done {position : Nat} {s : σ} : Walked range kind 0 position s [] s none
  | failed {count : Nat} {s t : σ} {call : HeaderCall} {e : Error} (hkind : call.kind = kind)
      (hmade : call.Made range s t) (hfault : call.fault = some e) :
      Walked range kind (count + 1) call.position s [call] t (some e)
  | next {count : Nat} {s t last : σ} {call : HeaderCall} {calls : List HeaderCall}
      {fault : Option Error} (hkind : call.kind = kind) (hmade : call.Made range s t)
      (hsound : call.Sound) (hrest : Walked range kind count call.next t calls last fault) :
      Walked range kind (count + 1) call.position s (call :: calls) last fault

/-- Every range reader gives some answer to every call. -/
theorem exists_made (range : RangeReader σ) (kind : VlrKind) (position : Nat) (s : σ) :
    ∃ (call : HeaderCall) (t : σ), call.kind = kind ∧ call.position = position ∧
      call.Made range s t := by
  cases hanswer : range position kind.headerSize s with
  | ok header t => exact ⟨⟨kind, position, .ok header⟩, t, rfl, rfl, hanswer⟩
  | error e t => exact ⟨⟨kind, position, .error e⟩, t, rfl, rfl, hanswer⟩

/-- Every walk makes some calls. -/
theorem exists_walked (range : RangeReader σ) (kind : VlrKind) (count position : Nat) (s : σ) :
    ∃ calls last fault, Walked range kind count position s calls last fault := by
  induction count generalizing position s with
  | zero => exact ⟨[], s, none, .done⟩
  | succ count ih =>
    obtain ⟨call, t, hkind, rfl, hmade⟩ := exists_made range kind position s
    cases hfault : call.fault with
    | some e => exact ⟨[call], t, some e, .failed hkind hmade hfault⟩
    | none =>
      obtain ⟨calls, last, fault, hrest⟩ := ih call.next t
      exact ⟨call :: calls, last, fault, .next hkind hmade (fault_eq_none_iff.1 hfault) hrest⟩

/-- What sound calls give, or calls of which the last one is faulty. -/
def resultOf (calls : List HeaderCall) (last : σ) :
    Option Error → EStateM.Result Error σ (List VlrEntry)
  | none => .ok (calls.map HeaderCall.entry) last
  | some e => .error e last

namespace Walked

variable {kind : VlrKind} {count position : Nat} {s last : σ} {calls : List HeaderCall}
  {fault : Option Error}

/-- The calls decide what the walk gives. -/
theorem walk_eq (h : Walked range kind count position s calls last fault) :
    walk range kind count position s = resultOf calls last fault := by
  induction h with
  | done => rfl
  | failed hkind hmade hfault =>
    rw [← hkind]
    exact walk_of_fault hmade hfault _
  | @next _ _ _ _ _ _ fault hkind hmade hsound _ ih =>
    rw [← hkind, walk_of_sound hmade hsound, hkind]
    cases fault with
    | none => exact Stateful.map_of_ok ih _
    | some e => exact Stateful.map_of_error ih _

/-- A walk makes at most one call for each record, and one for each if nothing is wrong. -/
theorem length_le (h : Walked range kind count position s calls last fault) :
    calls.length ≤ count ∧ (fault = none → calls.length = count) := by
  induction h with
  | done => exact ⟨Nat.le_refl 0, fun _ ↦ rfl⟩
  | failed => exact ⟨by simp, fun hfault ↦ by cases hfault⟩
  | next _ _ _ _ ih =>
    rw [List.length_cons]
    exact ⟨Nat.succ_le_succ ih.1, fun hfault ↦ congrArg Nat.succ (ih.2 hfault)⟩

/-- Either all calls are sound, or all but the last one, which is at fault. -/
theorem sound_or_failed (h : Walked range kind count position s calls last fault) :
    (fault = none ∧ ∀ call ∈ calls, call.Sound) ∨
      ∃ e before failed, fault = some e ∧ calls = before ++ [failed] ∧
        (∀ call ∈ before, call.Sound) ∧ failed.fault = some e := by
  induction h with
  | done => exact .inl ⟨rfl, by simp⟩
  | @failed _ _ _ call e _ _ hfault => exact .inr ⟨e, [], call, rfl, rfl, by simp, hfault⟩
  | @next _ _ _ _ call _ _ _ _ hsound _ ih =>
    rcases ih with ⟨hnone, hall⟩ | ⟨e, before, failed, hsome, rfl, hbefore, hfailed⟩
    · exact .inl ⟨hnone, List.forall_mem_cons.2 ⟨hsound, hall⟩⟩
    · exact .inr ⟨e, call :: before, failed, hsome, rfl,
        List.forall_mem_cons.2 ⟨hsound, hbefore⟩, hfailed⟩

/-- A walk asks for headers of one kind, each behind the record of the one before. -/
theorem follows (h : Walked range kind count position s calls last fault) :
    Follows kind position calls := by
  induction h with
  | done => trivial
  | failed hkind => exact ⟨hkind, rfl, trivial⟩
  | next hkind _ _ _ ih => exact ⟨hkind, rfl, ih⟩

/-- The answers are those of the range reader, from one state to the next. -/
theorem answered (h : Walked range kind count position s calls last fault) :
    Answered range s calls last := by
  induction h with
  | done => rfl
  | failed _ hmade => exact ⟨_, hmade, rfl⟩
  | next _ hmade _ _ ih => exact ⟨_, hmade, ih⟩

/-- A recorded walk makes the same calls, which are the only ones. -/
theorem recorded (h : Walked range kind count position s calls last fault)
    (log : List (Nat × Nat)) :
    Walked (recording range) kind count position (s, log) calls
      (last, log ++ calls.map HeaderCall.request) fault := by
  induction h generalizing log with
  | done =>
    rw [List.map_nil, List.append_nil]
    exact .done
  | failed hkind hmade hfault => exact .failed hkind (made_recording hmade log) hfault
  | @next _ _ _ _ call _ _ hkind hmade hsound _ ih =>
    have hrest := ih (log ++ [call.request])
    rw [List.append_assoc, List.singleton_append, ← List.map_cons] at hrest
    exact .next hkind (made_recording hmade log) hsound hrest

end Walked

/-! ## Loads -/

/-- The calls for the records and for the extended records, made in this order. -/
inductive Scanned (range : RangeReader σ) (vlrOffset vlrCount evlrOffset evlrCount : Nat) (s : σ) :
    (vlrCalls evlrCalls : List HeaderCall) → σ → Option Error → Prop
  | failed {vlrCalls : List HeaderCall} {last : σ} {e : Error}
      (hvlrs : Walked range .short vlrCount vlrOffset s vlrCalls last (some e)) :
      Scanned range vlrOffset vlrCount evlrOffset evlrCount s vlrCalls [] last (some e)
  | both {vlrCalls evlrCalls : List HeaderCall} {t last : σ} {fault : Option Error}
      (hvlrs : Walked range .short vlrCount vlrOffset s vlrCalls t none)
      (hevlrs : Walked range .extended evlrCount evlrOffset t evlrCalls last fault) :
      Scanned range vlrOffset vlrCount evlrOffset evlrCount s vlrCalls evlrCalls last fault

theorem exists_scanned (range : RangeReader σ) (vlrOffset vlrCount evlrOffset evlrCount : Nat)
    (s : σ) : ∃ vlrCalls evlrCalls last fault,
      Scanned range vlrOffset vlrCount evlrOffset evlrCount s vlrCalls evlrCalls last fault := by
  obtain ⟨vlrCalls, t, fault, hvlrs⟩ := exists_walked range .short vlrCount vlrOffset s
  cases fault with
  | some e => exact ⟨vlrCalls, [], t, some e, .failed hvlrs⟩
  | none =>
    obtain ⟨evlrCalls, last, fault, hevlrs⟩ :=
      exists_walked range .extended evlrCount evlrOffset t
    exact ⟨vlrCalls, evlrCalls, last, fault, .both hvlrs hevlrs⟩

/-- The calls ask for the headers in the order of the file: those of the records, and once there are
all of them, those of the extended records. -/
structure InFileOrder (vlrOffset vlrCount evlrOffset evlrCount : Nat)
    (vlrCalls evlrCalls : List HeaderCall) : Prop where
  vlrs : Follows .short vlrOffset vlrCalls
  evlrs : Follows .extended evlrOffset evlrCalls
  vlrs_le : vlrCalls.length ≤ vlrCount
  evlrs_le : evlrCalls.length ≤ evlrCount
  vlrs_first : evlrCalls ≠ [] → vlrCalls.length = vlrCount

namespace Scanned

variable {vlrOffset vlrCount evlrOffset evlrCount : Nat} {s last : σ}
  {vlrCalls evlrCalls : List HeaderCall} {fault : Option Error}

theorem scan_eq
    (h : Scanned range vlrOffset vlrCount evlrOffset evlrCount s vlrCalls evlrCalls last fault) :
    scan range vlrOffset vlrCount evlrOffset evlrCount s =
      resultOf (vlrCalls ++ evlrCalls) last fault := by
  cases h with
  | failed hvlrs => exact Stateful.bind_of_error hvlrs.walk_eq _
  | both hvlrs hevlrs =>
    rw [scan, Stateful.bind_of_ok hvlrs.walk_eq]
    cases fault with
    | some e => exact Stateful.bind_of_error hevlrs.walk_eq _
    | none =>
      rw [Stateful.bind_of_ok hevlrs.walk_eq, resultOf, List.map_append]
      rfl

theorem inFileOrder
    (h : Scanned range vlrOffset vlrCount evlrOffset evlrCount s vlrCalls evlrCalls last fault) :
    InFileOrder vlrOffset vlrCount evlrOffset evlrCount vlrCalls evlrCalls := by
  cases h with
  | failed hvlrs =>
    exact ⟨hvlrs.follows, trivial, hvlrs.length_le.1, Nat.zero_le _, fun h ↦ absurd rfl h⟩
  | both hvlrs hevlrs =>
    exact ⟨hvlrs.follows, hevlrs.follows, hvlrs.length_le.1, hevlrs.length_le.1,
      fun _ ↦ hvlrs.length_le.2 rfl⟩

theorem lengths
    (h : Scanned range vlrOffset vlrCount evlrOffset evlrCount s vlrCalls evlrCalls last none) :
    vlrCalls.length = vlrCount ∧ evlrCalls.length = evlrCount := by
  cases h with
  | both hvlrs hevlrs => exact ⟨hvlrs.length_le.2 rfl, hevlrs.length_le.2 rfl⟩

theorem answered
    (h : Scanned range vlrOffset vlrCount evlrOffset evlrCount s vlrCalls evlrCalls last fault) :
    Answered range s (vlrCalls ++ evlrCalls) last := by
  cases h with
  | failed hvlrs =>
    rw [List.append_nil]
    exact hvlrs.answered
  | both hvlrs hevlrs => exact hvlrs.answered.append hevlrs.answered

theorem recorded
    (h : Scanned range vlrOffset vlrCount evlrOffset evlrCount s vlrCalls evlrCalls last fault) :
    Scanned (recording range) vlrOffset vlrCount evlrOffset evlrCount (s, []) vlrCalls evlrCalls
      (last, (vlrCalls ++ evlrCalls).map HeaderCall.request) fault := by
  cases h with
  | failed hvlrs =>
    rw [List.append_nil]
    exact .failed (hvlrs.recorded [])
  | both hvlrs hevlrs =>
    rw [List.map_append]
    exact .both (hvlrs.recorded []) (hevlrs.recorded _)

/-- Either all calls are sound, or all but the last one, which is at fault. -/
theorem sound_or_failed
    (h : Scanned range vlrOffset vlrCount evlrOffset evlrCount s vlrCalls evlrCalls last fault) :
    (fault = none ∧ ∀ call ∈ vlrCalls ++ evlrCalls, call.Sound) ∨
      ∃ e before failed, fault = some e ∧ vlrCalls ++ evlrCalls = before ++ [failed] ∧
        (∀ call ∈ before, call.Sound) ∧ failed.fault = some e := by
  cases h with
  | failed hvlrs =>
    rw [List.append_nil]
    exact hvlrs.sound_or_failed
  | both hvlrs hevlrs =>
    have hfirst : ∀ call ∈ vlrCalls, call.Sound := by
      rcases hvlrs.sound_or_failed with ⟨-, hall⟩ | ⟨e, before, failed, hsome, -⟩
      · exact hall
      · cases hsome
    rcases hevlrs.sound_or_failed with ⟨hnone, hall⟩ |
      ⟨e, before, failed, hsome, hsplit, hbefore, hfailed⟩
    · exact .inl ⟨hnone, List.forall_mem_append.2 ⟨hfirst, hall⟩⟩
    · exact .inr ⟨e, vlrCalls ++ before, failed, hsome, by rw [hsplit, List.append_assoc],
        List.forall_mem_append.2 ⟨hfirst, hbefore⟩, hfailed⟩

end Scanned

/-- A catalog whose range reader has written down its calls. -/
def logging (c : Catalog σ) (log : List (Nat × Nat)) : Catalog (σ × List (Nat × Nat)) :=
  ⟨c.entries, (c.state, log)⟩

/-- Loading is all or nothing. It calls the range reader for the headers in the order of the file
and for nothing else, and succeeds exactly if all these calls are sound. Then the catalog lists the
records that they state. Otherwise the last call is the first one at fault, its fault is reported,
and nothing is found in what is left, whose range reader is not asked again. -/
theorem load_calls (range : RangeReader σ) (vlrOffset vlrCount evlrOffset evlrCount : Nat)
    (c : Catalog σ) : ∃ vlrCalls evlrCalls last,
      InFileOrder vlrOffset vlrCount evlrOffset evlrCount vlrCalls evlrCalls ∧
      Answered range c.state (vlrCalls ++ evlrCalls) last ∧
      ((∃ loaded, load range vlrOffset vlrCount evlrOffset evlrCount c = .ok () loaded) ↔
        ∀ call ∈ vlrCalls ++ evlrCalls, call.Sound) ∧
      (∀ loaded, load range vlrOffset vlrCount evlrOffset evlrCount c = .ok () loaded →
        vlrCalls.length = vlrCount ∧ evlrCalls.length = evlrCount ∧
        loaded = ⟨(vlrCalls ++ evlrCalls).map HeaderCall.entry, last⟩ ∧
        load (recording range) vlrOffset vlrCount evlrOffset evlrCount (c.logging []) =
          .ok () (loaded.logging ((vlrCalls ++ evlrCalls).map HeaderCall.request))) ∧
      (∀ e left, load range vlrOffset vlrCount evlrOffset evlrCount c = .error e left →
        (∃ before failed, vlrCalls ++ evlrCalls = before ++ [failed] ∧
          (∀ call ∈ before, call.Sound) ∧ failed.fault = some e) ∧
        left = ⟨[], last⟩ ∧
        load (recording range) vlrOffset vlrCount evlrOffset evlrCount (c.logging []) =
          .error e (left.logging ((vlrCalls ++ evlrCalls).map HeaderCall.request)) ∧
        ∀ (reader : RangeReader σ) (userId : String) (recordId : UInt16),
          fetch reader userId recordId left = .ok [] left) := by
  obtain ⟨vlrCalls, evlrCalls, last, fault, h⟩ :=
    exists_scanned range vlrOffset vlrCount evlrOffset evlrCount c.state
  have hscan := h.scan_eq
  have hrecorded := h.recorded.scan_eq
  refine ⟨vlrCalls, evlrCalls, last, h.inFileOrder, h.answered, ?_⟩
  rcases h.sound_or_failed with
    ⟨rfl, hall⟩ | ⟨e, before, failed, rfl, hsplit, hbefore, hfailed⟩
  · have hload : load range vlrOffset vlrCount evlrOffset evlrCount c =
        .ok () ⟨(vlrCalls ++ evlrCalls).map HeaderCall.entry, last⟩ := by
      simp only [load, hscan, resultOf]
    refine ⟨⟨fun _ ↦ hall, fun _ ↦ ⟨_, hload⟩⟩, fun loaded hloaded ↦ ?_, fun e left herror ↦ ?_⟩
    · cases hload.symm.trans hloaded
      refine ⟨h.lengths.1, h.lengths.2, rfl, ?_⟩
      simp only [load, logging, hrecorded, resultOf]
    · cases hload.symm.trans herror
  · have hload : load range vlrOffset vlrCount evlrOffset evlrCount c = .error e ⟨[], last⟩ := by
      simp only [load, hscan, resultOf]
    have hunsound : ¬failed.Sound := fun hsound ↦ by
      cases hfailed.symm.trans (fault_eq_none_iff.2 hsound)
    refine ⟨⟨?_, fun hall ↦ ?_⟩, fun loaded hloaded ↦ ?_, fun e' left herror ↦ ?_⟩
    · rintro ⟨loaded, hloaded⟩
      cases hload.symm.trans hloaded
    · rw [hsplit] at hall
      exact absurd (hall failed (List.mem_append_right _ List.mem_cons_self)) hunsound
    · cases hload.symm.trans hloaded
    · cases hload.symm.trans herror
      refine ⟨⟨before, failed, hsplit, hbefore, hfailed⟩, rfl, ?_, fun _ _ _ ↦ rfl⟩
      simp only [load, logging, hrecorded, resultOf]

end Catalog

end LasFile
