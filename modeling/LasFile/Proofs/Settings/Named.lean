import LasFile.Proofs.ExtraDim.Contiguous
import LasFile.Proofs.Outcome
import LasFile.Settings.Basic

/-!
# Settings that name their dimensions

Unless some entry is the word `all`, every entry names one dimension, stored as a single number
without a transform, and the dimensions are placed one after the other. It makes no difference then
whether `all` is allowed. With such an entry, settings that are accepted ask for all dimensions.
-/

namespace LasFile

open Outcome

namespace Selection

/-- An entry names a dimension that is stored as it is. -/
theorem parseEntry_eq_ok {entry : String} {dim : ExtraDim} (h : parseEntry entry = .ok dim) :
    ∃ name scalar, dim = .plain name (.scalar scalar) 0 := by
  simp only [parseEntry] at h
  split at h
  next => cases h
  next name type _ =>
    split at h
    next => cases h
    next =>
      split at h
      next => cases h
      next scalar _ =>
        cases h
        exact ⟨Text.trim name, scalar, rfl⟩

theorem parseEntries_of_named {entries : List String}
    (hnamed : ∀ entry ∈ entries, Text.trim entry ≠ "all") (allAllowed : Bool) :
    parseEntries allAllowed entries = only <$> entries.mapM parseEntry := by
  induction entries with
  | nil => rfl
  | cons entry rest ih =>
    obtain ⟨hentry, hrest⟩ := List.forall_mem_cons.1 hnamed
    rw [parseEntries, if_neg hentry, ih hrest, List.mapM_cons]
    cases parseEntry entry with
    | error e => rfl
    | ok dim => cases rest.mapM parseEntry <;> rfl

/-- The dimensions named by entries, in their places. -/
theorem parse_eq_ok_of_named {entries : List String}
    (hnamed : ∀ entry ∈ entries, Text.trim entry ≠ "all") {allAllowed : Bool}
    {selection : Selection} : parse entries allAllowed = .ok selection ↔
      ∃ given, entries.mapM parseEntry = .ok given ∧
        selection = only (ExtraDim.contiguous 0 given) := by
  unfold parse
  rw [parseEntries_of_named hnamed]
  cases entries.mapM parseEntry with
  | error e => simp [bind, Except.bind, Functor.map, Except.map]
  | ok given => simp [bind, Except.bind, Functor.map, Except.map, pure, Except.pure, eq_comm]

/-- One entry that asks for all dimensions decides. -/
theorem parseEntries_eq_all {entries : List String} {allAllowed : Bool} {selection : Selection}
    (hall : ∃ entry ∈ entries, Text.trim entry = "all")
    (h : parseEntries allAllowed entries = .ok selection) : selection = all := by
  induction entries generalizing selection with
  | nil =>
    obtain ⟨entry, hentry, -⟩ := hall
    cases hentry
  | cons entry rest ih =>
    rw [parseEntries] at h
    split at h
    next =>
      cases allAllowed with
      | false => cases h
      | true =>
        cases h
        rfl
    next hnamed =>
      have hrest : ∃ entry ∈ rest, Text.trim entry = "all" := by
        obtain ⟨other, hother, htrim⟩ := hall
        rcases List.mem_cons.1 hother with rfl | hmem
        · exact absurd htrim hnamed
        · exact ⟨other, hmem, htrim⟩
      simp only [bind_eq_ok] at h
      obtain ⟨dim, -, others, hothers, hsame⟩ := h
      obtain rfl := ih hrest hothers
      cases hsame
      rfl

theorem parse_eq_all {entries : List String} {allAllowed : Bool} {selection : Selection}
    (hall : ∃ entry ∈ entries, Text.trim entry = "all")
    (h : parse entries allAllowed = .ok selection) : selection = all := by
  simp only [parse, bind_eq_ok] at h
  obtain ⟨others, hothers, hsame⟩ := h
  obtain rfl := parseEntries_eq_all hall hothers
  cases hsame
  rfl

/-- Entries that select dimensions one by one name each of them. -/
theorem parseEntries_eq_only {entries : List String} {allAllowed : Bool} {given : List ExtraDim}
    (h : parseEntries allAllowed entries = .ok (only given)) :
    entries.mapM parseEntry = .ok given := by
  induction entries generalizing given with
  | nil =>
    cases h
    rfl
  | cons entry rest ih =>
    rw [parseEntries] at h
    split at h
    next => cases allAllowed <;> cases h
    next =>
      simp only [bind_eq_ok] at h
      obtain ⟨dim, hdim, selection, hrest, hsame⟩ := h
      cases selection with
      | all => cases hsame
      | only dims =>
        cases hsame
        exact mapM_cons_eq_ok.2 ⟨dim, dims, hdim, ih hrest, rfl⟩

/-- Dimensions that are named are stored as they are, one behind the other. -/
theorem exists_of_parse_eq_only {entries : List String} {allAllowed : Bool} {dims : List ExtraDim}
    (h : parse entries allAllowed = .ok (only dims)) : ∃ given, dims = ExtraDim.contiguous 0 given ∧
      ∀ dim ∈ given, dim.transform = .identity := by
  simp only [parse, bind_eq_ok] at h
  obtain ⟨selection, hentries, hselection⟩ := h
  cases selection with
  | all => cases hselection
  | only given =>
    cases hselection
    refine ⟨given, rfl, forall_mem_of_mapM_eq_ok (parseEntries_eq_only hentries) ?_⟩
    intro entry _ dim hdim
    obtain ⟨name, scalar, rfl⟩ := parseEntry_eq_ok hdim
    rfl

end Selection

namespace Settings

/-- The layout of the records that named dimensions are written into. -/
theorem recordLayout_of_named {s : Settings} {format : FormatLayout} {given : List ExtraDim}
    (hnamed : ∀ entry ∈ s.extraDims, Text.trim entry ≠ "all")
    (hformat : FormatLayout.ofNumber? s.pointFormat = some format)
    (hgiven : s.extraDims.mapM Selection.parseEntry = .ok given) :
    s.recordLayout =
      .ok (.ofFormat s.pointFormat s.scaling (ExtraDim.contiguous format.baseSize given)) := by
  have hselection : s.selection false = .ok (.only (ExtraDim.contiguous 0 given)) :=
    (Selection.parse_eq_ok_of_named hnamed).2 ⟨given, hgiven, rfl⟩
  rw [recordLayout, hformat]
  simp only [hselection, Bind.bind, Except.bind, Selection.explicit,
    ExtraDim.relocate_contiguous]
  rfl

end Settings

end LasFile
