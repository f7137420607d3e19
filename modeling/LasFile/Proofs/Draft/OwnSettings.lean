import LasFile.Proofs.Draft.Reopened

/-!
# Files opened with the settings they were written with

A file states its dimensions by what the fields of the description hold of their names. Opened with
its own settings, it has the dimensions of these settings exactly if every name fits its field; one
name that is cut on the way makes the two statements disagree, and the file is refused.
-/

namespace LasFile

open Draft Outcome

namespace Plan

variable {settings : Settings} {vlrs : List Vlr} (plan : Plan settings vlrs)

/-! ## What the settings state -/

/-- Opened with the settings of its plan, a file is expected to have the dimensions of the plan. -/
theorem relocate_given : ExtraDim.relocate plan.format.baseSize (ExtraDim.contiguous 0 plan.given) =
    plan.dims := ExtraDim.relocate_contiguous _ _

theorem declared_dims : plan.dims.map (fun dim ↦ (dim.name, dim.storage)) =
    plan.given.map fun dim ↦ (dim.name, dim.storage) :=
  ExtraDim.map_contiguous _ (fun _ _ ↦ rfl) _ _

/-! ## What the file states -/

/-- The dimensions that the description gives back, in their places. -/
def foundDims : List ExtraDim :=
  ExtraDim.contiguous plan.format.baseSize (plan.given.map Descriptor.found)

theorem declared_foundDims : plan.foundDims.map (fun dim ↦ (dim.name, dim.storage)) =
    plan.given.map fun dim ↦ (FixedText.stored 32 dim.name, dim.storage) := by
  rw [foundDims, ExtraDim.map_contiguous _ (fun _ _ ↦ rfl), List.map_map]
  rfl

/-- The file states the dimensions of its settings exactly if no name is cut. -/
theorem allAgree_foundDims : ExtraDim.allAgree plan.dims plan.foundDims = true ↔ plan.NamesFit := by
  rw [ExtraDim.allAgree_iff, declared_dims, declared_foundDims, List.map_inj_left]
  refine forall₂_congr fun dim _ ↦ ?_
  rw [Prod.mk.injEq, eq_comm, FixedText.stored_eq_self_iff]
  exact and_iff_left rfl

variable {data : Bytes} (hdata : Descriptor.encodeAll (plan.given.map Descriptor.ofDim) = .ok data)

include hdata in
theorem chooseDims_own (hnames : plan.NamesFit) :
    OpenFile.chooseDims plan.format.baseSize plan.dims data = .ok plan.dims := by
  cases data with
  | nil => rfl
  | cons byte rest =>
    have hfound := Descriptor.toExtraDims_encodeAll hdata plan.format.baseSize
    have hagree := plan.allAgree_foundDims.2 hnames
    rw [foundDims, plan.map_found_given hnames] at hagree
    rw [plan.map_found_given hnames] at hfound
    simp only [OpenFile.chooseDims, List.isEmpty_cons, hfound]
    exact if_pos (Bool.or_eq_true_iff.2 (.inr hagree))

include hdata in
/-- A name that is cut makes the description disagree with the settings. -/
theorem chooseDims_own_error (hnames : ¬plan.NamesFit) :
    OpenFile.chooseDims plan.format.baseSize plan.dims data =
      .error (.extraDimMismatch (plan.given.map fun dim ↦ (dim.name, dim.storage))
        (plan.given.map fun dim ↦ (FixedText.stored 32 dim.name, dim.storage))) := by
  have hsome : plan.given ≠ [] := by
    intro hnone
    apply hnames
    rw [NamesFit, hnone]
    exact List.forall_mem_nil _
  cases data with
  | nil => exact absurd (Descriptor.eq_nil_of_encodeAll_eq_nil hdata) hsome
  | cons byte rest =>
    have hfound := Descriptor.toExtraDims_encodeAll hdata plan.format.baseSize
    have hneither : ¬(plan.dims.isEmpty || ExtraDim.allAgree plan.dims plan.foundDims) = true := by
      rw [Bool.or_eq_true, plan.allAgree_foundDims, dims, ExtraDim.isEmpty_contiguous,
        List.isEmpty_iff]
      exact not_or_intro hsome hnames
    rw [← declared_dims, ← declared_foundDims]
    simp only [OpenFile.chooseDims, List.isEmpty_cons, hfound]
    exact if_neg hneither

end Plan

/-- A finished file whose dimensions are named, opened with the settings it was written with, for
every memory, all given records and every run. If every name takes at most the 32 bytes of its field
and holds no NUL, the file opens with the dimensions of the settings, moved behind the standard
fields. Otherwise it is refused, for its description holds the names as they were cut. No given
record may be taken for the description unless it is left out as one. -/
theorem Draft.reopened_with_own_settings {memory : Bytes} {created : CreationDate}
    {settings : Settings} {vlrs : List Vlr} {d : Draft} {points : List Point} {bytes : Bytes}
    {ignored : List IgnoreRule} (hcreate : create memory created settings vlrs = .ok d)
    (hnamed : ∀ entry ∈ settings.extraDims, Text.trim entry ≠ "all")
    (hignored : settings.ignored = .ok ignored)
    (hvlrs : ∀ v ∈ vlrs, Catalog.ReadsAsDescription v → v.isExtraBytes = true)
    (hfew : d.vlrs.length < UInt32.size)
    (hclose : (d.writeAll points).draft.close = .ok bytes) :
    ∃ format dims, FormatLayout.ofNumber? settings.pointFormat = some format ∧
      settings.selection false = .ok (.only dims) ∧
      ((∀ dim ∈ dims, dim.name.utf8ByteSize ≤ 32 ∧ '\x00' ∉ dim.name.toList) →
        ∃ f, OpenFile.ofBytes bytes settings = .ok f ∧
          f.extraDims = ExtraDim.relocate format.baseSize dims ∧
          ExtraDim.allAgree f.extraDims dims = true) ∧
      (¬(∀ dim ∈ dims, dim.name.utf8ByteSize ≤ 32 ∧ '\x00' ∉ dim.name.toList) →
        OpenFile.ofBytes bytes settings =
          .error (.extraDimMismatch (dims.map fun dim ↦ (dim.name, dim.storage))
            (dims.map fun dim ↦ (FixedText.stored 32 dim.name, dim.storage)))) := by
  obtain ⟨plan, rfl⟩ := Plan.exists_of_create hcreate hnamed
  rw [plan.close_writeAll_draft, Except.ok.injEq] at hclose
  obtain rfl := hclose
  obtain ⟨data, hdata, hpayload⟩ := plan.payload_written created points hvlrs
    (memory.drop (plan.written created points).length)
  have hselection : settings.selection false = .ok (.only (ExtraDim.contiguous 0 plan.given)) :=
    (Selection.parse_eq_ok_of_named hnamed).2 ⟨plan.given, plan.given_eq, rfl⟩
  have hstated : ExtraDim.relocate plan.format.baseSize
      (Selection.only (ExtraDim.contiguous 0 plan.given)).explicit = plan.dims :=
    plan.relocate_given
  have hnames : (∀ dim ∈ ExtraDim.contiguous 0 plan.given,
      dim.name.utf8ByteSize ≤ 32 ∧ '\x00' ∉ dim.name.toList) ↔ plan.NamesFit :=
    ExtraDim.forall_mem_contiguous ExtraDim.name (fun _ _ ↦ rfl)
      (P := fun name ↦ name.utf8ByteSize ≤ 32 ∧ '\x00' ∉ name.toList)
  refine ⟨plan.format, _, plan.format_eq, hselection, fun hfit ↦ ?_, fun hcut ↦ ?_⟩
  · refine ⟨_, plan.ofBytes_written_of_chooseDims created points hfew hselection hignored hpayload
      ?_, plan.relocate_given.symm, ?_⟩
    · rw [hstated]
      exact plan.chooseDims_own hdata (hnames.1 hfit)
    · rw [ExtraDim.allAgree_iff, ExtraDim.map_contiguous _ fun _ _ ↦ rfl]
      exact plan.declared_dims
  · have hchosen := plan.chooseDims_own_error hdata (mt hnames.2 hcut)
    rw [plan.ofBytes_written_eq created points hfew hselection hpayload, hstated, hchosen,
      ExtraDim.map_contiguous _ fun _ _ ↦ rfl, ExtraDim.map_contiguous _ fun _ _ ↦ rfl]
    rfl

/-- A name that fills its field, next to a given description that is left out. -/
theorem Draft.reopened_with_own_settings_filled :
    let settings : Settings :=
      { Settings.standard with
        extraDims := ["aaaaaaaaaaaaaaaaaaaaaaaaaaaaaaaa = uint8", "b=double"]
        ignoreVlrs := ["user/7"] }
    let vlrs : List Vlr := [.of "LASF_Spec" 4 "" [3], .of "user" 7 "" [1, 2]]
    let points : List Point := [.set .empty (.user "b") (.unsigned 1),
      .set .empty (.user "aaaaaaaaaaaaaaaaaaaaaaaaaaaaaaaa") (.unsigned 300)]
    ∃ (d : Draft) (bytes : Bytes) (f : OpenFile) (dims : List ExtraDim),
      create [] ⟨0, 0⟩ settings vlrs = .ok d ∧ (d.writeAll points).draft.close = .ok bytes ∧
      settings.selection false = .ok (.only dims) ∧ dims.length = 2 ∧
      OpenFile.ofBytes bytes settings = .ok f ∧ ExtraDim.allAgree f.extraDims dims = true := by
  intro settings vlrs points
  have hrun : (do
      let d ← create [] ⟨0, 0⟩ settings vlrs
      let bytes ← (d.writeAll points).draft.close
      let selection ← settings.selection false
      let ignored ← settings.ignored
      return (d.vlrs.length, bytes.length, selection.explicit.map fun dim ↦
        (dim.name.utf8ByteSize ≤ 32 && !dim.name.toList.contains '\x00'), ignored.length) :
        Except Error _).toOption = some (2, 764, [true, true], 1) := by decide +kernel
  have hsteps := eq_ok_of_toOption hrun
  simp only [bind_eq_ok, pure_eq_ok, Prod.mk.injEq] at hsteps
  obtain ⟨d, hcreate, bytes, hclose, selection, hselection, ignored, hignored, hfew, -, hnames,
    -⟩ := hsteps
  have hnamed : ∀ entry ∈ settings.extraDims, Text.trim entry ≠ "all" := by decide +kernel
  have hvlrs : ∀ v ∈ vlrs, Catalog.ReadsAsDescription v → v.isExtraBytes = true := by decide +kernel
  obtain ⟨format, dims, -, hdims, hopens, -⟩ := reopened_with_own_settings hcreate hnamed hignored
    hvlrs (by rw [hfew]; decide) hclose
  obtain rfl : selection = .only dims := Except.ok.inj (hselection.symm.trans hdims)
  have hchecked : dims.map (fun dim ↦
      (dim.name.utf8ByteSize ≤ 32 && !dim.name.toList.contains '\x00')) = [true, true] := hnames
  have hlength : dims.length = 2 := by simpa using congrArg List.length hchecked
  have hfit : ∀ dim ∈ dims, dim.name.utf8ByteSize ≤ 32 ∧ '\x00' ∉ dim.name.toList := by
    intro dim hdim
    have hcheck := List.mem_map_of_mem (f := fun dim : ExtraDim ↦
      (dim.name.utf8ByteSize ≤ 32 && !dim.name.toList.contains '\x00')) hdim
    rw [hchecked] at hcheck
    simpa using hcheck
  obtain ⟨f, hopen, -, hagree⟩ := hopens hfit
  exact ⟨d, bytes, f, dims, hcreate, hclose, hdims, hlength, hopen, hagree⟩

/-- A name of one byte too many goes through, and the file does not open with its own settings. -/
theorem Draft.not_reopened_with_own_settings :
    let settings : Settings :=
      { Settings.standard with extraDims := ["aaaaaaaaaaaaaaaaaaaaaaaaaaaaaaaaa=uint8"] }
    ∃ (d : Draft) (bytes : Bytes), create [] ⟨0, 0⟩ settings [] = .ok d ∧
      (∀ entry ∈ settings.extraDims, Text.trim entry ≠ "all") ∧ settings.ignored = .ok [] ∧
      d.close = .ok bytes ∧ ∀ f, OpenFile.ofBytes bytes settings ≠ .ok f := by
  intro settings
  have hrun : (do
      let d ← create [] ⟨0, 0⟩ settings []
      let bytes ← d.close
      return (OpenFile.ofBytes bytes settings).toOption.isSome : Except Error _).toOption =
        some false := by decide +kernel
  have hsteps := eq_ok_of_toOption hrun
  simp only [bind_eq_ok, pure_eq_ok] at hsteps
  obtain ⟨d, hcreate, bytes, hclose, hrefused⟩ := hsteps
  refine ⟨d, bytes, hcreate, by decide +kernel, rfl, hclose, fun f hopen ↦ ?_⟩
  rw [hopen] at hrefused
  cases hrefused

end LasFile
