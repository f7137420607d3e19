import LasFile.Proofs.Vlr.Walk
import Mathlib.Data.List.Forall2

/-!
# Lookups in the catalog of written records

A catalog that was loaded from written records answers as the list of these records does: with the
payload of the first one of a user and a number. Users are compared as their fields hold them, so
that a user without NUL is told apart from a shorter name that leaves room in the field.
-/

namespace LasFile.Catalog

open Outcome

/-! ## Entries and their records -/

/-- An entry that tells where a file holds the payload of a record. -/
structure Locates (file : Bytes) (v : Vlr) (entry : VlrEntry) : Prop where
  userId : entry.userId = FixedText.stored Vlr.userIdWidth v.userId
  recordId : entry.recordId = v.recordId
  length : entry.length = v.data.length
  within : entry.offset + entry.length ≤ file.length
  payload : file.HoldsAt entry.offset v.data

/-- The entries of written records locate them one by one. -/
theorem forall₂_locates {file : Bytes} {kind : VlrKind} {vlrs : List Vlr} {blocks : List Bytes}
    (hblocks : vlrs.mapM (·.encode kind) = .ok blocks) {position : Nat}
    (hplace : file.HoldsAt position blocks.flatten) :
    List.Forall₂ (Locates file) vlrs (entriesOf kind position vlrs) := by
  induction vlrs generalizing blocks position with
  | nil => exact .nil
  | cons v vs ih =>
    obtain ⟨part, parts, hpart, hparts, rfl⟩ := mapM_cons_eq_ok.1 hblocks
    obtain ⟨-, hsplit⟩ := Vlr.encode_eq_ok.1 hpart
    have hsize := Vlr.length_encode hpart
    have hpos : 0 < kind.headerSize := by cases kind <;> decide
    rw [List.flatten_cons] at hplace
    obtain ⟨hfirst, hothers⟩ := hplace.append
    have hwithin := hfirst.le (by rw [hsize, Vlr.size]; omega)
    rw [hsize] at hothers hwithin
    rw [hsplit] at hfirst
    obtain ⟨-, hdata⟩ := hfirst.append
    rw [Vlr.length_headerItems] at hdata
    rw [Vlr.size, ← Nat.add_assoc] at hwithin
    exact .cons ⟨rfl, rfl, rfl, hwithin, hdata⟩ (ih hparts hothers)

/-! ## Lookups -/

/-- The first of some records that a catalog lists under a user and a number. -/
def lookup (vlrs : List Vlr) (userId : String) (recordId : UInt16) : Option Vlr :=
  vlrs.find? fun v ↦
    FixedText.stored Vlr.userIdWidth v.userId == userId && v.recordId == recordId

section

variable {file : Bytes} {vlrs : List Vlr} {entries : List VlrEntry}
  (hentries : List.Forall₂ (Locates file) vlrs entries) (userId : String) (recordId : UInt16)

include hentries

/-- An entry is found exactly where its record is. -/
theorem find?_of_locates :
    (lookup vlrs userId recordId = none ∧ find? entries userId recordId = none) ∨
      ∃ v entry, lookup vlrs userId recordId = some v ∧
        find? entries userId recordId = some entry ∧ Locates file v entry := by
  induction hentries with
  | nil => exact .inl ⟨rfl, rfl⟩
  | @cons v entry vs entries hfirst _ ih =>
    rw [lookup, find?, List.find?_cons, List.find?_cons, ← hfirst.userId, ← hfirst.recordId]
    cases entry.userId == userId && entry.recordId == recordId with
    | true => exact .inr ⟨v, entry, rfl, rfl, hfirst⟩
    | false => exact ih

theorem contains_of_locates :
    contains entries userId recordId = (lookup vlrs userId recordId).isSome := by
  rcases find?_of_locates hentries userId recordId with
    ⟨hnone, hfind⟩ | ⟨v, entry, hsome, hfind, -⟩
  · rw [contains, hnone, hfind]
    rfl
  · rw [contains, hsome, hfind]
    rfl

/-- What is fetched is the payload of the first record, whatever the range reader was asked
before. -/
theorem fetch_of_locates {σ : Type} {range : RangeReader σ} (hserves : range.Serves file) (s : σ) :
    ∃ t, fetch range userId recordId ⟨entries, s⟩ =
      .ok (((lookup vlrs userId recordId).map Vlr.data).getD []) ⟨entries, t⟩ := by
  rcases find?_of_locates hentries userId recordId with
    ⟨hnone, hfind⟩ | ⟨v, entry, hsome, hfind, hlocates⟩
  · refine ⟨s, ?_⟩
    simp only [fetch, hfind, hnone]
    rfl
  · have hwithin := hlocates.within
    rw [hlocates.length] at hwithin
    obtain ⟨t, hanswer⟩ := hserves.part hlocates.payload hwithin s
    refine ⟨t, ?_⟩
    simp only [fetch, hfind, hsome, hlocates.length, hanswer]
    rfl

/-- The same of a whole file, which is its own range reader. -/
theorem payload_of_locates :
    OpenFile.payload file ⟨entries, ()⟩ userId recordId =
      .ok (((lookup vlrs userId recordId).map Vlr.data).getD []) := by
  obtain ⟨t, hfetch⟩ := fetch_of_locates hentries userId recordId file.serves_rangeReader ()
  simp only [OpenFile.payload, hfetch]

end

/-! ## Written records -/

/-- Records and extended records that were written anywhere in a file, each kind one after the
other, are catalogued in order, with their users as the fields hold them and their payloads in
place. The catalog has a user and a number exactly if some record has them, and fetches the payload
of the first such record from then on. -/
theorem load_written {vlrs evlrs : List Vlr} (hshort : ∀ v ∈ vlrs, v.data.length ≤ 65535) :
    ∃ blocks extended, vlrs.mapM (·.encode .short) = .ok blocks ∧
      evlrs.mapM (·.encode .extended) = .ok extended ∧
      ∀ {σ : Type} (range : RangeReader σ) (file : Bytes) (vlrOffset evlrOffset : Nat)
        (c : Catalog σ), range.Serves file → file.HoldsAt vlrOffset blocks.flatten →
        file.HoldsAt evlrOffset extended.flatten →
        vlrOffset + Vlr.totalSize .short vlrs < UInt64.size →
        evlrOffset + Vlr.totalSize .extended evlrs < UInt64.size →
        ∃ loaded, load range vlrOffset vlrs.length evlrOffset evlrs.length c = .ok () loaded ∧
          loaded.entries =
            entriesOf .short vlrOffset vlrs ++ entriesOf .extended evlrOffset evlrs ∧
          ∀ (userId : String) (recordId : UInt16),
            contains loaded.entries userId recordId =
              (lookup (vlrs ++ evlrs) userId recordId).isSome ∧
            ∀ s, ∃ t, fetch range userId recordId ⟨loaded.entries, s⟩ =
              .ok (((lookup (vlrs ++ evlrs) userId recordId).map Vlr.data).getD [])
                ⟨loaded.entries, t⟩ := by
  have hencode : ∀ v ∈ vlrs, ∃ part, v.encode .short = .ok part := fun v hv ↦
    ⟨_, Vlr.encode_eq_ok.2 ⟨fun _ ↦ hshort v hv, rfl⟩⟩
  have hextend : ∀ v ∈ evlrs, ∃ part, v.encode .extended = .ok part := fun v _ ↦
    ⟨_, Vlr.encode_eq_ok.2 ⟨fun h ↦ (by cases h), rfl⟩⟩
  obtain ⟨blocks, hblocks⟩ := exists_mapM_eq_ok hencode
  obtain ⟨extended, hextended⟩ := exists_mapM_eq_ok hextend
  refine ⟨blocks, extended, hblocks, hextended, ?_⟩
  intro σ range file vlrOffset evlrOffset c hserves hvlrs hevlrs hend hextendedEnd
  obtain ⟨t, hfirst⟩ := walk_of_serves hserves hblocks hvlrs hend c.state
  obtain ⟨last, hsecond⟩ := walk_of_serves hserves hextended hevlrs hextendedEnd t
  have hscan : scan range vlrOffset vlrs.length evlrOffset evlrs.length c.state =
      .ok (entriesOf .short vlrOffset vlrs ++ entriesOf .extended evlrOffset evlrs) last := by
    rw [scan, Stateful.bind_of_ok hfirst, Stateful.bind_of_ok hsecond]
    rfl
  have hentries : List.Forall₂ (Locates file) (vlrs ++ evlrs)
      (entriesOf .short vlrOffset vlrs ++ entriesOf .extended evlrOffset evlrs) :=
    List.rel_append (forall₂_locates hblocks hvlrs) (forall₂_locates hextended hevlrs)
  refine ⟨⟨_, last⟩, by simp only [load, hscan], rfl, fun userId recordId ↦ ⟨?_, fun s ↦ ?_⟩⟩
  · exact contains_of_locates hentries userId recordId
  · exact fetch_of_locates hentries userId recordId hserves s

/-- Records of which the first has a user that is cut, and the second one that ends at a NUL. -/
def cutUsers : List Vlr := [.of "Oberflächen, Köln" 7 "" [1, 2, 3], .of "A\x00B" 1 "first" [4, 5]]

/-- Extended records of which the first has the user and the number of a record. -/
def sharedUser : List Vlr := [.of "A" 1 "second" [6], .of "C" 1 "" [7, 8]]

/-- A file in which both kinds of records stand, with some bytes around them. -/
def recordFile : Bytes :=
  [0, 0] ++ cutUsers.flatMap (fun v ↦ Item.encodeAll .little (v.items .short)) ++ [0] ++
    sharedUser.flatMap (fun v ↦ Item.encodeAll .little (v.items .extended)) ++ [0]

/-- The first payload of a user that two records share is fetched. -/
theorem load_written_sharedUser : ∃ loaded,
    load (recording recordFile.rangeReader) 2 2 116 2 ⟨[], ((), [])⟩ = .ok () loaded ∧
      loaded.entries = [⟨"Oberflächen, K", 7, 56, 3⟩, ⟨"A", 1, 113, 2⟩, ⟨"A", 1, 176, 1⟩,
        ⟨"C", 1, 237, 2⟩] ∧
      contains loaded.entries "A" 2 = false ∧
      ∃ t, fetch (recording recordFile.rangeReader) "A" 1 loaded = .ok [4, 5] t := by
  obtain ⟨blocks, extended, hblocks, hextended, hload⟩ :=
    @load_written cutUsers sharedUser (by decide)
  have hshort : cutUsers.mapM (·.encode .short) =
      .ok (cutUsers.map fun v ↦ Item.encodeAll .little (v.items .short)) := by rfl
  have hlong : sharedUser.mapM (·.encode .extended) =
      .ok (sharedUser.map fun v ↦ Item.encodeAll .little (v.items .extended)) := by rfl
  cases hblocks.symm.trans hshort
  cases hextended.symm.trans hlong
  obtain ⟨loaded, hloaded, hentries, hanswers⟩ := hload (recording recordFile.rangeReader)
    recordFile 2 116 ⟨[], ((), [])⟩ recordFile.serves_rangeReader.recording (by decide +kernel)
    (by decide +kernel) (by decide +kernel) (by decide +kernel)
  obtain ⟨t, hfetch⟩ := (hanswers "A" 1).2 loaded.state
  refine ⟨loaded, hloaded, ?_, ?_, _, hfetch⟩
  · rw [hentries]
    decide +kernel
  · rw [(hanswers "A" 2).1]
    decide +kernel

/-! ## Descriptions of extra dimensions -/

/-- A record that is found where the description is looked for. -/
def ReadsAsDescription (v : Vlr) : Prop :=
  FixedText.stored Vlr.userIdWidth v.userId = Vlr.extraBytesUser ∧
    v.recordId = Vlr.extraBytesRecord

instance (v : Vlr) : Decidable (ReadsAsDescription v) := inferInstanceAs (Decidable (_ ∧ _))

/-- A user field with room to spare holds the name of the description only if it was written so. -/
theorem isExtraBytes_of_stored {v : Vlr} (hnul : '\x00' ∉ v.userId.toList)
    (hreads : ReadsAsDescription v) : v.isExtraBytes = true := by
  obtain ⟨huser, hrecord⟩ := hreads
  have hname : v.userId = Vlr.extraBytesUser := FixedText.eq_of_stored_eq hnul (by decide) huser
  rw [Vlr.isExtraBytes, hname, hrecord]
  rfl

/-- Where each record that reads as the description is one, nothing reads as it once those are left
out. -/
theorem not_readsAsDescription {vlrs : List Vlr}
    (hvlrs : ∀ v ∈ vlrs, ReadsAsDescription v → v.isExtraBytes = true) :
    ∀ v ∈ vlrs.filter fun v ↦ !v.isExtraBytes, ¬ReadsAsDescription v := by
  intro v hv hreads
  obtain ⟨hmem, hother⟩ := List.mem_filter.1 hv
  rw [hvlrs v hmem hreads] at hother
  cases hother

/-- Records that do not read as the description are not found as it. -/
theorem lookup_eq_none {vlrs : List Vlr} (hvlrs : ∀ v ∈ vlrs, ¬ReadsAsDescription v) :
    lookup vlrs Vlr.extraBytesUser Vlr.extraBytesRecord = none := by
  rw [lookup, List.find?_eq_none]
  intro v hv hmatch
  obtain ⟨huser, hrecord⟩ := Bool.and_eq_true_iff.1 hmatch
  exact hvlrs v hv ⟨eq_of_beq huser, eq_of_beq hrecord⟩

/-- What is found as the description reads as it. -/
theorem readsAsDescription_of_lookup {vlrs : List Vlr} {v : Vlr}
    (h : lookup vlrs Vlr.extraBytesUser Vlr.extraBytesRecord = some v) :
    v ∈ vlrs ∧ ReadsAsDescription v := by
  rw [lookup] at h
  have hmatch := List.find?_some h
  obtain ⟨huser, hrecord⟩ := Bool.and_eq_true_iff.1 hmatch
  exact ⟨List.mem_of_find?_eq_some h, eq_of_beq huser, eq_of_beq hrecord⟩

/-- The description that stands behind such records is found. -/
theorem lookup_append_description {vlrs : List Vlr} (hvlrs : ∀ v ∈ vlrs, ¬ReadsAsDescription v)
    (description : String) (data : Bytes) :
    lookup (vlrs ++ [.of Vlr.extraBytesUser Vlr.extraBytesRecord description data])
        Vlr.extraBytesUser Vlr.extraBytesRecord =
      some (.of Vlr.extraBytesUser Vlr.extraBytesRecord description data) := by
  have hstored : FixedText.stored Vlr.userIdWidth Vlr.extraBytesUser = Vlr.extraBytesUser := by
    decide
  have hbefore := lookup_eq_none hvlrs
  rw [lookup] at hbefore ⊢
  rw [List.find?_append, hbefore, Option.none_or, List.find?_singleton, Vlr.of, hstored]
  rfl

end LasFile.Catalog
