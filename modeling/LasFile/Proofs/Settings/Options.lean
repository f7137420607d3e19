import LasFile.Proofs.Record.Length
import LasFile.Proofs.Settings.Named
import Mathlib.Data.List.TakeDrop
import Mathlib.Data.List.TakeWhile

/-!
# Options that name dimensions

An option is cut at its first equals sign into a name and a type. The first option that cannot be
taken decides the error, and the first that asks for all dimensions ends the list. The dimensions
that are named stand one behind the other, so that the length of a record and the reach of its
layout are found from the same sizes.
-/

namespace LasFile

open Outcome

namespace Text

/-- Nothing is left of a text exactly if all of it is trimmed. -/
theorem trimBoth_eq_nil_iff {p : Char → Bool} {cs : List Char} :
    trimBoth p cs = [] ↔ ∀ c ∈ cs, p c = true := by
  rw [trimBoth, List.reverse_eq_nil_iff, List.dropWhile_eq_nil_iff]
  constructor
  · intro h
    rw [← List.dropWhile_eq_nil_iff]
    by_contra hrest
    have hkept := List.head_dropWhile_not p hrest
    have htrimmed := h _ (List.mem_reverse.2 (List.head_mem hrest))
    rw [hkept] at htrimmed
    exact Bool.false_ne_true htrimmed
  · intro h c hc
    exact h c ((List.dropWhile_sublist p).subset (List.mem_reverse.1 hc))

/-- A text is blank unless one of its characters is not. -/
theorem isEmpty_trim_eq_false_iff {s : String} :
    (trim s).isEmpty = false ↔ ∃ c ∈ s.toList, isBlank c = false := by
  have hempty : (trim s).isEmpty = true ↔ trimBoth isBlank s.toList = [] := by
    rw [String.isEmpty_iff, trim, ← String.toList_eq_nil_iff, String.toList_ofList]
  rw [← Bool.not_eq_true, hempty, trimBoth_eq_nil_iff]
  simp

/-- A text is cut at the first mark in it. -/
theorem splitAt?_eq_some_iff {mark : Char} {s before after : String} :
    splitAt? mark s = some (before, after) ↔
      s.toList = before.toList ++ mark :: after.toList ∧ mark ∉ before.toList := by
  rw [splitAt?, List.span_eq_takeWhile_dropWhile]
  constructor
  · intro h
    have hwhole := List.takeWhile_append_dropWhile (p := (· != mark)) (l := s.toList)
    have hbefore : mark ∉ s.toList.takeWhile (· != mark) := by
      intro hmem
      simpa using List.mem_takeWhile_imp hmem
    cases hrest : s.toList.dropWhile (· != mark) with
    | nil =>
      rw [hrest] at h
      cases h
    | cons c rest =>
      have hmark : c = mark := by
        have hhead := List.head_dropWhile_not (· != mark) (hrest ▸ List.cons_ne_nil c rest)
        simpa [hrest] using hhead
      subst hmark
      rw [hrest] at h hwhole
      cases h
      rw [String.toList_ofList, String.toList_ofList, hwhole]
      exact ⟨rfl, hbefore⟩
  · rintro ⟨hwhole, hbefore⟩
    have hkept : ∀ c ∈ before.toList, (c != mark) = true := by
      intro c hc
      exact bne_iff_ne.2 fun hmark ↦ hbefore (hmark ▸ hc)
    rw [hwhole, List.takeWhile_append_of_pos hkept, List.dropWhile_append_of_pos hkept,
      List.takeWhile_cons_of_neg (by simp), List.dropWhile_cons_of_neg (by simp),
      List.append_nil]
    simp only [String.ofList_toList]

end Text

namespace Selection

/-! ## Entries -/

/-- The parts of an entry around its first equals sign, with a name that is not blank. -/
structure HasParts (entry name type : String) : Prop where
  cut : entry.toList = name.toList ++ '=' :: type.toList
  first : '=' ∉ name.toList
  named : ∃ c ∈ name.toList, Text.isBlank c = false

/-- An entry names a dimension, wherever that is placed. -/
def Names (entry : String) (dim : ExtraDim) : Prop :=
  ∃ name type scalar, HasParts entry name type ∧ Scalar.ofName? type = some scalar ∧
    dim = .plain (Text.trim name) (.scalar scalar) dim.offset

/-- Why an entry names no dimension. -/
inductive Refuses (entry : String) : Error → Prop
  | unnamed (h : ∀ name type, ¬HasParts entry name type) : Refuses entry (.extraDim entry)
  | untyped {name type : String} (h : HasParts entry name type)
    (htype : Scalar.ofName? type = none) : Refuses entry (.extraDimType (Text.trim type))

theorem hasParts_iff {entry name type : String} : HasParts entry name type ↔
    Text.splitAt? '=' entry = some (name, type) ∧ (Text.trim name).isEmpty = false := by
  rw [Text.splitAt?_eq_some_iff, Text.isEmpty_trim_eq_false_iff]
  constructor
  · rintro ⟨hcut, hfirst, hnamed⟩
    exact ⟨⟨hcut, hfirst⟩, hnamed⟩
  · rintro ⟨⟨hcut, hfirst⟩, hnamed⟩
    exact ⟨hcut, hfirst, hnamed⟩

/-- An entry has one name and one type. -/
theorem HasParts.unique {entry name type other kind : String} (h : HasParts entry name type)
    (hother : HasParts entry other kind) : other = name ∧ kind = type := by
  have hsame := (hasParts_iff.1 h).1.symm.trans (hasParts_iff.1 hother).1
  cases hsame
  exact ⟨rfl, rfl⟩

theorem parseEntry_of_hasParts {entry name type : String} (h : HasParts entry name type) :
    parseEntry entry = match Scalar.ofName? type with
      | none => .error (.extraDimType (Text.trim type))
      | some scalar => .ok (.plain (Text.trim name) (.scalar scalar) 0) := by
  obtain ⟨hsplit, hnamed⟩ := hasParts_iff.1 h
  cases htype : Scalar.ofName? type with
  | none => simp [parseEntry, hsplit, hnamed, htype]
  | some scalar => simp [parseEntry, hsplit, hnamed, htype]

theorem parseEntry_of_not_hasParts {entry : String} (h : ∀ name type, ¬HasParts entry name type) :
    parseEntry entry = .error (.extraDim entry) := by
  simp only [hasParts_iff, not_and, Bool.not_eq_false] at h
  cases hsplit : Text.splitAt? '=' entry with
  | none => simp only [parseEntry, hsplit]
  | some parts => simp only [parseEntry, hsplit, h parts.1 parts.2 hsplit, if_true]

/-- An entry gives the dimension that it names. -/
theorem parseEntry_eq_ok_iff {entry : String} {dim : ExtraDim} :
    parseEntry entry = .ok dim ↔ Names entry dim ∧ dim.offset = 0 := by
  by_cases hparts : ∃ name type, HasParts entry name type
  · obtain ⟨name, type, hparts⟩ := hparts
    rw [parseEntry_of_hasParts hparts]
    constructor
    · intro h
      cases htype : Scalar.ofName? type with
      | none =>
        rw [htype] at h
        cases h
      | some scalar =>
        rw [htype] at h
        cases h
        exact ⟨⟨name, type, scalar, hparts, htype, rfl⟩, rfl⟩
    · rintro ⟨⟨other, kind, scalar, hother, htype, hdim⟩, hoffset⟩
      obtain ⟨rfl, rfl⟩ := hparts.unique hother
      rw [htype, hdim, hoffset]
  · have hnone : ∀ name type, ¬HasParts entry name type := by simpa using hparts
    rw [parseEntry_of_not_hasParts hnone]
    constructor
    · rintro ⟨⟩
    · rintro ⟨⟨name, type, scalar, hother, -⟩, -⟩
      exact absurd hother (hnone name type)

/-- An entry gives the error that it is refused with. -/
theorem parseEntry_eq_error_iff {entry : String} {e : Error} :
    parseEntry entry = .error e ↔ Refuses entry e := by
  by_cases hparts : ∃ name type, HasParts entry name type
  · obtain ⟨name, type, hparts⟩ := hparts
    rw [parseEntry_of_hasParts hparts]
    constructor
    · intro h
      cases htype : Scalar.ofName? type with
      | none =>
        rw [htype] at h
        cases h
        exact .untyped hparts htype
      | some scalar =>
        rw [htype] at h
        cases h
    · rintro (hnone | ⟨hother, htype⟩)
      · exact absurd hparts (hnone name type)
      · obtain ⟨rfl, rfl⟩ := hparts.unique hother
        rw [htype]
  · have hnone : ∀ name type, ¬HasParts entry name type := by simpa using hparts
    rw [parseEntry_of_not_hasParts hnone]
    constructor
    · intro h
      cases h
      exact .unnamed hnone
    · rintro (hnone | ⟨hother, -⟩)
      · rfl
      · exact absurd hother (hnone _ _)

/-- The entry that names a dimension does not say where it is placed. -/
theorem Names.moved {entry : String} {dim : ExtraDim} (h : Names entry dim) (place : Int) :
    Names entry { dim with offset := place } := by
  obtain ⟨name, type, scalar, hparts, htype, hdim⟩ := h
  rw [hdim]
  exact ⟨name, type, scalar, hparts, htype, rfl⟩

/-- An entry gives a dimension exactly if it names one. -/
theorem exists_parseEntry_eq_ok_iff {entry : String} :
    (∃ dim, parseEntry entry = .ok dim) ↔ ∃ dim, Names entry dim := by
  constructor
  · rintro ⟨dim, hdim⟩
    exact ⟨dim, (parseEntry_eq_ok_iff.1 hdim).1⟩
  · rintro ⟨dim, hdim⟩
    exact ⟨_, parseEntry_eq_ok_iff.2 ⟨hdim.moved 0, rfl⟩⟩

/-! ## Lists of entries -/

/-- Dimensions are those that entries name, in order and without gaps. -/
structure Lists (entries : List String) (dims : List ExtraDim) : Prop where
  length_eq : dims.length = entries.length
  names : ∀ (i : Nat) entry dim, entries[i]? = some entry → dims[i]? = some dim → Names entry dim
  placed : ∀ (i : Nat) dim, dims[i]? = some dim →
    dim.offset = (ExtraDim.totalSize (dims.take i) : Int)

variable {entries : List String} {dims : List ExtraDim}

theorem lists_contiguous (h : entries.mapM parseEntry = .ok dims) :
    Lists entries (ExtraDim.contiguous 0 dims) where
  length_eq := (ExtraDim.length_contiguous 0 dims).trans (length_of_mapM_eq_ok h)
  names i entry dim hentry hdim := by
    obtain ⟨given, hgiven, hplace⟩ := getElem?_of_mapM_eq_ok h hentry
    rw [ExtraDim.getElem?_contiguous, hplace] at hdim
    cases hdim
    exact (parseEntry_eq_ok_iff.1 hgiven).1.moved _
  placed i dim hdim := by
    rw [ExtraDim.offset_of_getElem?_contiguous hdim, Int.zero_add]

/-- Every entry of a list names the dimension at its place. -/
theorem Lists.exists_names (h : Lists entries dims) :
    ∀ entry ∈ entries, ∃ dim, Names entry dim := by
  intro entry hentry
  obtain ⟨i, hi⟩ := List.mem_iff_getElem?.1 hentry
  have hbound : i < dims.length := h.length_eq ▸ (List.getElem?_eq_some_iff.1 hi).1
  exact ⟨dims[i], h.names i entry _ hi (List.getElem?_eq_getElem hbound)⟩

/-- What entries give before it is placed. -/
theorem Lists.mapM_parseEntry (h : Lists entries dims) :
    entries.mapM parseEntry = .ok (dims.map fun d ↦ { d with offset := 0 }) := by
  obtain ⟨given, hgiven⟩ := exists_mapM_eq_ok fun entry hentry ↦
    exists_parseEntry_eq_ok_iff.2 (h.exists_names entry hentry)
  have hsame : given = dims.map fun d ↦ { d with offset := 0 } := by
    refine List.ext_getElem? fun i ↦ ?_
    rw [List.getElem?_map]
    cases hentry : entries[i]? with
    | none =>
      have hout := List.getElem?_eq_none_iff.1 hentry
      rw [List.getElem?_eq_none (length_of_mapM_eq_ok hgiven ▸ hout),
        List.getElem?_eq_none (h.length_eq ▸ hout), Option.map_none]
    | some entry =>
      have hbound : i < dims.length := h.length_eq ▸ (List.getElem?_eq_some_iff.1 hentry).1
      have hdim : dims[i]? = some dims[i] := List.getElem?_eq_getElem hbound
      obtain ⟨found, hfound, hplace⟩ := getElem?_of_mapM_eq_ok hgiven hentry
      have hnamed := parseEntry_eq_ok_iff.2 ⟨(h.names i entry _ hentry hdim).moved 0, rfl⟩
      rw [hplace, hdim, Except.ok.inj (hfound.symm.trans hnamed), Option.map_some]
  rw [hgiven, hsame]

theorem Lists.contiguous_eq (h : Lists entries dims) :
    ExtraDim.contiguous 0 (dims.map fun d ↦ { d with offset := 0 }) = dims := by
  rw [ExtraDim.contiguous_map fun d _ ↦ ⟨0, rfl⟩, ExtraDim.contiguous_eq_self h.placed]

/-- Entries that name each dimension select those dimensions. -/
theorem parse_eq_ok_iff_lists (hnamed : ∀ entry ∈ entries, Text.trim entry ≠ "all")
    {allAllowed : Bool} {selection : Selection} : parse entries allAllowed = .ok selection ↔
      ∃ dims, Lists entries dims ∧ selection = only dims := by
  rw [parse_eq_ok_of_named hnamed]
  constructor
  · rintro ⟨given, hgiven, rfl⟩
    exact ⟨_, lists_contiguous hgiven, rfl⟩
  · rintro ⟨dims, hdims, rfl⟩
    exact ⟨_, hdims.mapM_parseEntry, congrArg only hdims.contiguous_eq.symm⟩

/-- The first entry that is refused gives the error. -/
theorem parse_eq_error_iff_refuses (hnamed : ∀ entry ∈ entries, Text.trim entry ≠ "all")
    {allAllowed : Bool} {e : Error} : parse entries allAllowed = .error e ↔
      ∃ (i : Nat) (entry : String), entries[i]? = some entry ∧ Refuses entry e ∧
        ∀ j < i, ∀ earlier, entries[j]? = some earlier → ∃ dim, Names earlier dim := by
  have hmapM : parse entries allAllowed = .error e ↔ entries.mapM parseEntry = .error e := by
    rw [parse, parseEntries_of_named hnamed]
    cases entries.mapM parseEntry <;> simp [bind, Except.bind, Functor.map, Except.map, pure,
      Except.pure]
  rw [hmapM, mapM_eq_error_iff]
  simp only [parseEntry_eq_error_iff, exists_parseEntry_eq_ok_iff]

/-- Entries that each name a dimension are accepted. -/
theorem exists_parse_eq_ok_iff (hnamed : ∀ entry ∈ entries, Text.trim entry ≠ "all")
    {allAllowed : Bool} : (∃ selection, parse entries allAllowed = .ok selection) ↔
      ∀ entry ∈ entries, ∃ dim, Names entry dim := by
  constructor
  · rintro ⟨selection, hparse⟩
    obtain ⟨dims, hdims, -⟩ := (parse_eq_ok_iff_lists hnamed).1 hparse
    exact hdims.exists_names
  · intro hall
    cases hparse : parse entries allAllowed with
    | ok selection => exact ⟨selection, rfl⟩
    | error e =>
      obtain ⟨i, entry, hentry, hrefuses, -⟩ := (parse_eq_error_iff_refuses hnamed).1 hparse
      obtain ⟨dim, hok⟩ := exists_parseEntry_eq_ok_iff.2 (hall entry (List.mem_of_getElem? hentry))
      cases hok.symm.trans (parseEntry_eq_error_iff.2 hrefuses)

/-- The first entry that asks for all dimensions ends the list. -/
theorem parseEntries_append_all {front : List String} {entry : String} (rest : List String)
    (hfront : ∀ earlier ∈ front, Text.trim earlier ≠ "all") (hall : Text.trim entry = "all")
    (allAllowed : Bool) : parseEntries allAllowed (front ++ entry :: rest) =
      front.mapM parseEntry >>= fun _ ↦
        if allAllowed then .ok all else .error (.extraDim entry) := by
  induction front with
  | nil =>
    rw [List.nil_append, parseEntries, if_pos hall]
    rfl
  | cons earlier front ih =>
    obtain ⟨hearlier, hrest⟩ := List.forall_mem_cons.1 hfront
    rw [List.cons_append, parseEntries, if_neg hearlier, ih hrest, List.mapM_cons]
    cases parseEntry earlier with
    | error e => rfl
    | ok dim => cases front.mapM parseEntry <;> cases allAllowed <;> rfl

theorem parse_append_all {front : List String} {entry : String} (rest : List String)
    (hfront : ∀ earlier ∈ front, Text.trim earlier ≠ "all") (hall : Text.trim entry = "all")
    (allAllowed : Bool) : parse (front ++ entry :: rest) allAllowed =
      parse front allAllowed >>= fun _ ↦
        if allAllowed then .ok all else .error (.extraDim entry) := by
  rw [parse, parse, parseEntries_append_all rest hfront hall, parseEntries_of_named hfront]
  cases front.mapM parseEntry <;> cases allAllowed <;> rfl

/-! ## Reach -/

/-- Records hold the dimensions that follow their fields, and what is read of records ends with the
last of them. -/
theorem reach_of_contiguous {number : UInt8} {format : FormatLayout}
    (hformat : FormatLayout.ofNumber? number = some format) (scaling : Scaling)
    (given : List ExtraDim) : let placed := ExtraDim.contiguous format.baseSize given
    (∀ dim ∈ placed, (format.baseSize : Int) ≤ dim.offset ∧
      dim.offset + dim.size ≤ format.recordLength placed) ∧
    (RecordLayout.ofFormat number scaling placed).recordLength ≤ format.recordLength placed ∧
    (placed ≠ [] →
      (RecordLayout.ofFormat number scaling placed).recordLength = format.recordLength placed) := by
  intro placed
  have hlength : format.recordLength placed = format.recordLength given :=
    ExtraDim.recordLength_contiguous format _ given
  refine ⟨?_, ?_, ?_⟩
  · intro dim hdim
    obtain ⟨hstart, hend⟩ := ExtraDim.offset_of_mem_contiguous hdim
    rw [hlength, FormatLayout.recordLength, Int.natCast_add]
    exact ⟨hstart, hend⟩
  · rw [hlength]
    exact RecordLayout.recordLength_ofFormat_le hformat scaling given
  · intro hplaced
    have hgiven : given ≠ [] := by
      rintro rfl
      exact hplaced rfl
    rw [hlength, RecordLayout.recordLength_ofFormat hformat,
      FormatLayout.readLength_eq_recordLength (.inr hgiven)]

/-- Options select dimensions as they stand up to the first one that asks for all. Those that name
dimensions lay out the records that are written and the records that are read. -/
theorem parse_decides_layout (entries : List String) (allAllowed : Bool) :
    ((∀ entry ∈ entries, Text.trim entry ≠ "all") →
      ((∃ selection, parse entries allAllowed = .ok selection) ↔
        ∀ entry ∈ entries, ∃ dim, Names entry dim) ∧
      (∀ e, parse entries allAllowed = .error e ↔
        ∃ (i : Nat) (entry : String), entries[i]? = some entry ∧ Refuses entry e ∧
          ∀ j < i, ∀ earlier, entries[j]? = some earlier → ∃ dim, Names earlier dim) ∧
      ∀ selection, parse entries allAllowed = .ok selection ↔
        ∃ dims, Lists entries dims ∧ selection = only dims) ∧
    (∀ front entry rest, entries = front ++ entry :: rest →
      (∀ earlier ∈ front, Text.trim earlier ≠ "all") → Text.trim entry = "all" →
      parse entries allAllowed = parse front allAllowed >>= fun _ ↦
        if allAllowed then .ok all else .error (.extraDim entry)) ∧
    ∀ number format scaling dims, FormatLayout.ofNumber? number = some format →
      parse entries allAllowed = .ok (only dims) →
      let placed := ExtraDim.relocate format.baseSize dims
      (∀ dim ∈ placed, (format.baseSize : Int) ≤ dim.offset ∧
        dim.offset + dim.size ≤ format.recordLength placed) ∧
      (RecordLayout.ofFormat number scaling placed).recordLength ≤ format.recordLength placed ∧
      (dims ≠ [] → (RecordLayout.ofFormat number scaling placed).recordLength =
        format.recordLength placed) := by
  refine ⟨fun hnamed ↦ ?_, ?_, ?_⟩
  · exact ⟨exists_parse_eq_ok_iff hnamed, fun _ ↦ parse_eq_error_iff_refuses hnamed,
      fun _ ↦ parse_eq_ok_iff_lists hnamed⟩
  · rintro front entry rest rfl hfront hall
    exact parse_append_all rest hfront hall allAllowed
  · intro number format scaling dims hformat hparse
    obtain ⟨given, rfl, -⟩ := exists_of_parse_eq_only hparse
    rw [ExtraDim.relocate_contiguous]
    obtain ⟨hends, hreach, hsame⟩ := reach_of_contiguous hformat scaling given
    refine ⟨hends, hreach, fun hdims ↦ hsame fun hnone ↦ hdims ?_⟩
    rw [← List.isEmpty_iff, ExtraDim.isEmpty_contiguous] at hnone ⊢
    exact hnone

/-- Three options lay out the thirteen bytes behind the fields of format 3, and the one that asks
for all dimensions leaves those behind it unread. -/
theorem parse_decides_layout_colours :
    let entries := ["R = uint8", "G=float_t", " B =INT64"]
    let placed : List ExtraDim := [.plain "R" (.scalar (.unsigned .one)) 34,
      .plain "G" (.scalar .single) 35, .plain "B" (.scalar (.signed .eight)) 39]
    (∀ entry ∈ entries, Text.trim entry ≠ "all") ∧
    (∃ dims format, parse entries true = .ok (only dims) ∧ Lists entries dims ∧
      FormatLayout.ofNumber? 3 = some format ∧ ExtraDim.relocate format.baseSize dims = placed ∧
      (∀ dim ∈ placed, (34 : Int) ≤ dim.offset ∧ dim.offset + dim.size ≤ 47) ∧
      (RecordLayout.ofFormat 3 Settings.standard.scaling placed).recordLength = 47) ∧
    parse (entries ++ " all" :: ["=int8"]) true = .ok all ∧
    parse (entries ++ " all" :: ["=int8"]) false = .error (.extraDim " all") := by
  intro entries placed
  let dims : List ExtraDim := [.plain "R" (.scalar (.unsigned .one)) 0,
    .plain "G" (.scalar .single) 1, .plain "B" (.scalar (.signed .eight)) 5]
  have hnamed : ∀ entry ∈ entries, Text.trim entry ≠ "all" := by decide +kernel
  have hparse : parse entries true = .ok (only dims) := eq_ok_of_toOption (by decide +kernel)
  obtain ⟨hlists, -, hlayout⟩ := parse_decides_layout entries true
  obtain ⟨found, hfound, hsame⟩ := ((hlists hnamed).2.2 _).1 hparse
  obtain rfl : dims = found := only.inj hsame
  obtain ⟨hends, -, hreach⟩ := hlayout 3 _ Settings.standard.scaling dims rfl hparse
  have hcut : ∀ allAllowed, parse (entries ++ " all" :: ["=int8"]) allAllowed = _ :=
    fun allAllowed ↦ (parse_decides_layout (entries ++ " all" :: ["=int8"]) allAllowed).2.1
      entries " all" ["=int8"] rfl hnamed (by decide +kernel)
  refine ⟨hnamed, ⟨dims, _, hparse, hfound, rfl, rfl, hends, hreach (List.cons_ne_nil _ _)⟩, ?_, ?_⟩
  · rw [hcut, hparse]
    rfl
  · have hparse' : parse entries false = .ok (only dims) :=
      eq_ok_of_toOption (by decide +kernel)
    rw [hcut, hparse']
    rfl

/-- The third of these options is refused for its type, whatever stands behind it. -/
example : parse ["R = uint8", "G=float_t", "B=colour", "=int8"] true =
    .error (.extraDimType "colour") := by decide +kernel

end Selection

end LasFile
