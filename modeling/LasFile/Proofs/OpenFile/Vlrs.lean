import LasFile.Proofs.OpenFile.Opening
import LasFile.Proofs.Vlr.Calls

/-!
# Records of opened files

The header of a catalogued record lies in the file, so that the description in front of its payload
can always be read. The payload itself may reach past the end, and then no records are given at all.
Options that ignore records act on what was read and on nothing else: neither the catalog nor the
points depend on them.
-/

namespace LasFile

open Outcome

/-! ## Entries and their records -/

namespace VlrEntry

/-- The header of the record lies in a file, and its payload begins behind it. -/
structure Behind (entry : VlrEntry) (file : Bytes) : Prop where
  headerSize_le : VlrKind.headerSize .short ≤ entry.offset
  offset_le : entry.offset ≤ file.length

/-- The payload lies in a file. -/
def Within (entry : VlrEntry) (file : Bytes) : Prop := entry.offset + entry.length ≤ file.length

instance (entry : VlrEntry) (file : Bytes) : Decidable (entry.Within file) :=
  inferInstanceAs (Decidable (_ ≤ _))

/-- The record as a file has it. The description ends where the payload begins. -/
def record (entry : VlrEntry) (file : Bytes) : Vlr :=
  .of entry.userId entry.recordId
    (FixedText.decode (file.slice (entry.offset - Vlr.descriptionWidth) Vlr.descriptionWidth))
    (file.slice entry.offset entry.length)

/-- The description in front of the payload lies in the file. -/
theorem Behind.description_le {entry : VlrEntry} {file : Bytes} (h : entry.Behind file) :
    entry.offset - Vlr.descriptionWidth + Vlr.descriptionWidth ≤ file.length := by
  have hfront : Vlr.descriptionWidth ≤ entry.offset :=
    Nat.le_trans (by decide) h.headerSize_le
  rw [Nat.sub_add_cancel hfront]
  exact h.offset_le

end VlrEntry

/-! ## Places of entries -/

namespace Catalog

variable {file : Bytes}

/-- What a file was asked for and gave lies in it. -/
theorem le_of_made {call : HeaderCall} {s t : Unit} (hmade : call.Made file.rangeReader s t)
    (hsound : call.Sound) : call.position + call.kind.headerSize ≤ file.length := by
  obtain ⟨header, hanswer, -⟩ := hsound.answered
  rw [HeaderCall.Made, hanswer] at hmade
  by_contra hpast
  rw [Bytes.rangeReader, Bytes.range_of_lt (Nat.lt_of_not_le hpast)] at hmade
  cases hmade

theorem Walked.behind {kind : VlrKind} {count position : Nat} {s last : Unit}
    {calls : List HeaderCall} {fault : Option Error}
    (h : Walked file.rangeReader kind count position s calls last fault) (hnone : fault = none) :
    ∀ call ∈ calls, call.entry.Behind file := by
  induction h with
  | done => simp
  | failed => cases hnone
  | @next _ _ _ _ call _ _ _ hmade hsound _ ih =>
    have hsize : VlrKind.headerSize .short ≤ call.kind.headerSize := by
      cases call.kind <;> decide
    have hfront := Nat.le_trans hsize (Nat.le_add_left _ call.position)
    exact List.forall_mem_cons.2 ⟨⟨hfront, le_of_made hmade hsound⟩, ih hnone⟩

/-- All entries that are found in a file stand behind their headers. -/
theorem behind_of_scan {vlrOffset vlrCount evlrOffset evlrCount : Nat} {s t : Unit}
    {entries : List VlrEntry}
    (h : scan file.rangeReader vlrOffset vlrCount evlrOffset evlrCount s = .ok entries t) :
    ∀ entry ∈ entries, entry.Behind file := by
  obtain ⟨vlrCalls, evlrCalls, last, fault, hscanned⟩ :=
    exists_scanned file.rangeReader vlrOffset vlrCount evlrOffset evlrCount s
  have hresult := hscanned.scan_eq.symm.trans h
  cases fault with
  | some e => cases hresult
  | none =>
    cases hresult
    cases hscanned with
    | both hvlrs hevlrs =>
      rw [List.forall_mem_map, List.forall_mem_append]
      exact ⟨hvlrs.behind rfl, hevlrs.behind rfl⟩

end Catalog

namespace OpenFile

variable {file : Bytes} {settings : Settings} {f : OpenFile}

theorem behind_of_catalogOf {h : Header} {catalog : Catalog Unit}
    (hcatalog : catalogOf file h = .ok catalog) :
    ∀ entry ∈ catalog.entries, entry.Behind file := by
  unfold catalogOf Catalog.load at hcatalog
  split at hcatalog
  next hload =>
    split at hload
    next hscan =>
      cases hload
      cases hcatalog
      exact Catalog.behind_of_scan hscan
    next => cases hload
  next => cases hcatalog

/-! ## Reading records -/

namespace Opening

variable (opening : Opening file settings f) {entry : VlrEntry}

include opening

theorem behind : ∀ entry ∈ f.catalog.entries, entry.Behind file :=
  behind_of_catalogOf opening.catalog_eq

/-- A record whose payload lies in the file is read as the file has it. -/
theorem vlr_of_within (hentry : entry ∈ f.catalog.entries) (hwithin : entry.Within file) :
    f.vlr entry = .ok (entry.record file) := by
  have hdescription := (opening.behind entry hentry).description_le
  rw [vlr, opening.bytes_eq, Bytes.range_of_le hdescription, Bytes.range_of_le hwithin]
  rfl

/-- A payload that reaches past the end of the file cannot be read. -/
theorem vlr_of_not_within (hentry : entry ∈ f.catalog.entries) (hpast : ¬entry.Within file) :
    f.vlr entry = .error (.file (.pastEnd entry.length entry.offset file.length)) := by
  have hdescription := (opening.behind entry hentry).description_le
  rw [vlr, opening.bytes_eq, Bytes.range_of_le hdescription,
    Bytes.range_of_lt (Nat.lt_of_not_le hpast)]
  rfl

/-- Records are given where all payloads lie in the file. -/
theorem vlrs_of_within (hwithin : ∀ entry ∈ f.catalog.entries, entry.Within file) :
    f.vlrs = .ok ((f.catalog.entries.map (·.record file)).filter
      fun v ↦ !f.ignored.any (·.covers v)) := by
  have hall : f.catalog.entries.mapM f.vlr = .ok (f.catalog.entries.map (·.record file)) :=
    mapM_eq_ok_of_forall fun entry hentry ↦ opening.vlr_of_within hentry (hwithin entry hentry)
  rw [vlrs, hall]
  rfl

/-- No records are given unless all payloads lie in the file. -/
theorem within_of_vlrs {found : List Vlr} (h : f.vlrs = .ok found) :
    ∀ entry ∈ f.catalog.entries, entry.Within file := by
  intro entry hentry
  obtain ⟨all, hall, -⟩ := bind_eq_ok.1 h
  obtain ⟨v, hv⟩ := exists_eq_ok_of_mapM_eq_ok hall entry hentry
  by_contra hpast
  cases (opening.vlr_of_not_within hentry hpast).symm.trans hv

end Opening

end OpenFile

/-! ## Ignored records -/

/-- Some option of a list names a record. -/
def IgnoreRule.named (options : List String) (v : Vlr) : Bool :=
  options.any fun option ↦
    match parse option with
    | .ok rule => rule.covers v
    | .error _ => false

/-- Rules cover what the options that they are made of name. -/
theorem IgnoreRule.any_covers_of_parseAll {options : List String} {rules : List IgnoreRule}
    (h : parseAll options = .ok rules) (v : Vlr) : rules.any (·.covers v) = named options v := by
  unfold parseAll at h
  unfold named
  induction options generalizing rules with
  | nil =>
    obtain rfl := mapM_nil_eq_ok.1 h
    rfl
  | cons option options ih =>
    obtain ⟨rule, rest, hrule, hrest, rfl⟩ := mapM_cons_eq_ok.1 h
    rw [List.any_cons, List.any_cons, ih hrest, hrule]

namespace OpenFile

variable {file : Bytes} {settings : Settings}

/-- A file is opened as without ignored records, and then the rules are made of the options. -/
theorem ofBytes_ignoreVlrs (file : Bytes) (settings : Settings) (options : List String) :
    ofBytes file { settings with ignoreVlrs := options } = do
      let plain ← ofBytes file { settings with ignoreVlrs := [] }
      let ignored ← IgnoreRule.parseAll options
      return { plain with ignored } := by
  simp only [ofBytes, bind_assoc, pure_bind]
  rfl

/-- Opening with options gives the file as opened without any, except for the rules. -/
theorem exists_plain {options : List String} {f : OpenFile}
    (hf : ofBytes file { settings with ignoreVlrs := options } = .ok f) :
    ∃ plain rules, ofBytes file { settings with ignoreVlrs := [] } = .ok plain ∧
      plain.ignored = [] ∧ IgnoreRule.parseAll options = .ok rules ∧
      f = { plain with ignored := rules } := by
  rw [ofBytes_ignoreVlrs] at hf
  obtain ⟨plain, hplain, hrules⟩ := bind_eq_ok.1 hf
  obtain ⟨rules, hparse, hpure⟩ := bind_eq_ok.1 hrules
  obtain ⟨opening⟩ := exists_opening hplain
  have hnone : [] = plain.ignored := Except.ok.inj opening.ignored_eq
  exact ⟨plain, rules, hplain, hnone.symm, hparse, (pure_eq_ok.1 hpure).symm⟩

/-- Options take the records that they name out of those that are read without any. -/
theorem vlrs_eq_map_filter {plain : OpenFile} (hplain : plain.ignored = []) {options : List String}
    {rules : List IgnoreRule} (hrules : IgnoreRule.parseAll options = .ok rules) :
    { plain with ignored := rules }.vlrs =
      plain.vlrs.map (List.filter fun v ↦ !IgnoreRule.named options v) := by
  have hcovers : (fun v ↦ !rules.any (·.covers v)) = fun v ↦ !IgnoreRule.named options v := by
    funext v
    rw [IgnoreRule.any_covers_of_parseAll hrules]
  have hread : { plain with ignored := rules }.vlr = plain.vlr := rfl
  unfold vlrs
  rw [hcovers, hplain, hread]
  cases plain.catalog.entries.mapM plain.vlr with
  | error e => rfl
  | ok all =>
    have hall : all.filter (fun v ↦ !List.any [] fun rule : IgnoreRule ↦ rule.covers v) = all := by
      simp
    simp only [Bind.bind, Except.bind, pure, Except.pure, Except.map, hall]

/-- Ignoring is a filter on the records that a file gives. Whatever options it is opened with, they
take out the records that some of them names and keep the others as they are, in order, and what
fails without options fails in the same way with them. Records are given exactly where the payloads
of all entries lie in the file, each with the bytes of its entry, and no entry is too near to the
beginning of the file for the description in front of it. Nothing else depends on the options. -/
theorem vlrs_of_ignoreVlrs {options others : List String} {f g : OpenFile}
    (hf : ofBytes file { settings with ignoreVlrs := options } = .ok f)
    (hg : ofBytes file { settings with ignoreVlrs := others } = .ok g) :
    ∃ plain, ofBytes file { settings with ignoreVlrs := [] } = .ok plain ∧
      f.vlrs = plain.vlrs.map (List.filter fun v ↦ !IgnoreRule.named options v) ∧
      g.vlrs = plain.vlrs.map (List.filter fun v ↦ !IgnoreRule.named others v) ∧
      ((∃ found, f.vlrs = .ok found) ↔ ∀ entry ∈ f.catalog.entries, entry.Within file) ∧
      (∀ found, plain.vlrs = .ok found → found = f.catalog.entries.map (·.record file)) ∧
      (∀ entry ∈ f.catalog.entries, Vlr.descriptionWidth ≤ entry.offset) ∧
      f.catalog = g.catalog ∧ f.extraDims = g.extraDims ∧
      (∀ userId recordId, f.fetch userId recordId = g.fetch userId recordId) ∧
      (∀ index, f.readPoint index = g.readPoint index) ∧ f.readPoints = g.readPoints := by
  obtain ⟨opening⟩ := exists_opening hf
  obtain ⟨plain, rules, hplain, hnone, hrules, rfl⟩ := exists_plain hf
  obtain ⟨same, otherRules, hsame, -, hother, rfl⟩ := exists_plain hg
  cases hplain.symm.trans hsame
  obtain ⟨unfiltered⟩ := exists_opening hplain
  refine ⟨plain, hplain, vlrs_eq_map_filter hnone hrules, vlrs_eq_map_filter hnone hother, ?_, ?_,
    ?_, rfl, rfl, fun _ _ ↦ rfl, fun _ ↦ rfl, rfl⟩
  · constructor
    · rintro ⟨found, hfound⟩
      exact opening.within_of_vlrs hfound
    · intro hwithin
      exact ⟨_, opening.vlrs_of_within hwithin⟩
  · intro found hfound
    have hwithin := unfiltered.within_of_vlrs hfound
    have hall := unfiltered.vlrs_of_within hwithin
    rw [hfound, hnone] at hall
    simpa using hall
  · intro entry hentry
    apply Nat.le_trans _ (opening.behind entry hentry).headerSize_le
    decide

/-- A file of two records, of users `A` and `B`. -/
def twoUsers : Bytes :=
  Header.encode { Header.blank with offsetToPoints := 338, vlrCount := 2 } ++
    [Vlr.of "A" 1 "first" [7], Vlr.of "B" 1 "second" [8, 9]].flatMap fun v ↦
      Item.encodeAll .little (v.items .short)

/-- Each of two options leaves the record that the other one names. -/
theorem vlrs_of_ignoreVlrs_twoUsers : ∃ f g,
    ofBytes twoUsers { Settings.standard with ignoreVlrs := ["A/1", "C"] } = .ok f ∧
      ofBytes twoUsers { Settings.standard with ignoreVlrs := [" B "] } = .ok g ∧
      f.vlrs = .ok [.of "B" 1 "second" [8, 9]] ∧ g.vlrs = .ok [.of "A" 1 "first" [7]] := by
  have hfirst : (ofBytes twoUsers
      { Settings.standard with ignoreVlrs := ["A/1", "C"] }).toOption.isSome = true := by
    decide +kernel
  have hsecond : (ofBytes twoUsers
      { Settings.standard with ignoreVlrs := [" B "] }).toOption.isSome = true := by
    decide +kernel
  have hread : (do (← ofBytes twoUsers { Settings.standard with ignoreVlrs := [] }).vlrs) =
      .ok [.of "A" 1 "first" [7], .of "B" 1 "second" [8, 9]] := by
    decide +kernel
  obtain ⟨f, hf⟩ := Option.isSome_iff_exists.1 hfirst
  obtain ⟨g, hg⟩ := Option.isSome_iff_exists.1 hsecond
  have hf := eq_ok_of_toOption hf
  have hg := eq_ok_of_toOption hg
  obtain ⟨plain, hplain, hleft, hright, -⟩ := vlrs_of_ignoreVlrs hf hg
  rw [hplain] at hread
  have hread : plain.vlrs = _ := hread
  refine ⟨f, g, hf, hg, ?_, ?_⟩
  · rw [hleft, hread]
    decide +kernel
  · rw [hright, hread]
    decide +kernel

end OpenFile

end LasFile
