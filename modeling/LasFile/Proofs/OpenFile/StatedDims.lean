import LasFile.Proofs.ExtraDim.Payload
import LasFile.Proofs.OpenFile.Opening

/-!
# Dimensions stated twice

Settings and a file may both state extra dimensions. These have to agree one by one in name, type
and size, and where they do, opening goes on as if the settings had stated none. Places are not
compared. They agree all the same, because both lists stand without gaps behind the same format.
-/

namespace LasFile

open Outcome

/-- Storage is told apart by its type and its size. -/
theorem Storage.eq_iff {s t : Storage} : s = t ↔ s.scalar? = t.scalar? ∧ s.size = t.size := by
  refine ⟨fun h ↦ h ▸ ⟨rfl, rfl⟩, fun ⟨htype, hsize⟩ ↦ ?_⟩
  cases s with
  | raw m =>
    cases t with
    | raw n => exact congrArg raw (UInt8.toNat_inj.1 hsize)
    | scalar type => cases htype
  | scalar type =>
    cases t with
    | raw n => cases htype
    | scalar other => exact congrArg scalar (Option.some.inj htype)

namespace ExtraDim

/-- Dimensions that differ in their number or, at some place, in name, type or size. -/
def Differ (as bs : List ExtraDim) : Prop :=
  as.length ≠ bs.length ∨ ∃ (i : Nat) (a b : ExtraDim), as[i]? = some a ∧ bs[i]? = some b ∧
    (a.name ≠ b.name ∨ a.storage.scalar? ≠ b.storage.scalar? ∨ a.size ≠ b.size)

/-- What a listing of dimensions says of one. -/
def declared (d : ExtraDim) : String × Storage := (d.name, d.storage)

theorem declared_eq_iff {a b : ExtraDim} : a.declared = b.declared ↔
    a.name = b.name ∧ a.storage.scalar? = b.storage.scalar? ∧ a.size = b.size := by
  rw [declared, declared, Prod.mk.injEq, Storage.eq_iff]
  rfl

/-- Dimensions agree one by one exactly if they do not differ. -/
theorem allAgree_iff_not_differ {as bs : List ExtraDim} :
    allAgree as bs = true ↔ ¬Differ as bs := by
  have hdeclared : allAgree as bs = true ↔ as.map declared = bs.map declared := allAgree_iff
  rw [hdeclared]
  constructor
  · rintro h (hlength | ⟨i, a, b, ha, hb, hparts⟩)
    · exact hlength (by simpa using congrArg List.length h)
    · have hsame : (as.map declared)[i]? = (bs.map declared)[i]? := by rw [h]
      rw [List.getElem?_map, List.getElem?_map, ha, hb, Option.map_some, Option.map_some,
        Option.some.injEq, declared_eq_iff] at hsame
      tauto
  · intro h
    have hlength : as.length = bs.length := by
      by_contra hne
      exact h (.inl hne)
    apply List.ext_getElem (by simpa using hlength)
    intro i hi hi'
    rw [List.length_map] at hi hi'
    rw [List.getElem_map, List.getElem_map, declared_eq_iff]
    by_contra hparts
    rw [not_and_or, not_and_or] at hparts
    exact h (.inr ⟨i, as[i], bs[i], List.getElem?_eq_getElem hi, List.getElem?_eq_getElem hi',
      hparts⟩)

/-- Dimensions without gaps from one place on are placed by their sizes alone. -/
theorem map_offset_contiguous {as bs : List ExtraDim} (h : as.map size = bs.map size)
    (start : Int) :
    (contiguous start as).map (·.offset) = (contiguous start bs).map (·.offset) := by
  induction as generalizing bs start with
  | nil =>
    obtain rfl : bs = [] := by simpa using h.symm
    rfl
  | cons a as ih =>
    cases bs with
    | nil => cases h
    | cons b bs =>
      rw [List.map_cons, List.map_cons, List.cons.injEq] at h
      obtain ⟨hfirst, hrest⟩ := h
      rw [contiguous, contiguous, List.map_cons, List.map_cons, hfirst, ih hrest]

/-- Dimensions without gaps that agree stand at the same places. -/
theorem map_offset_of_allAgree {as bs : List ExtraDim} {start : Int}
    (h : allAgree (contiguous start as) (contiguous start bs) = true) :
    (contiguous start as).map (·.offset) = (contiguous start bs).map (·.offset) := by
  rw [allAgree_iff, map_contiguous _ fun _ _ ↦ rfl, map_contiguous _ fun _ _ ↦ rfl] at h
  apply map_offset_contiguous
  have hsizes := congrArg (List.map fun entry ↦ Storage.size entry.2) h
  rwa [List.map_map, List.map_map] at hsizes

end ExtraDim

/-! ## Failures of an opening -/

/-- An option that ignores records is refused as such an option. -/
theorem IgnoreRule.raises_parse (option : String) :
    Raises (parse option) fun e ↦ ∃ text, e = .ignoreOption text := by
  have hrefused : Raises (.error (.ignoreOption (Text.trim option)) : Except Error IgnoreRule)
      fun e ↦ ∃ text, e = .ignoreOption text := by
    rintro _ ⟨⟩
    exact ⟨_, rfl⟩
  have hchecked (x : Except Error IgnoreRule)
      (hx : Raises x fun e ↦ ∃ text, e = .ignoreOption text) :
      Raises (x >>= fun rule ↦
        if rule.userId.isEmpty || Vlr.userIdWidth < rule.userId.utf8ByteSize then
          .error (.ignoreOption (Text.trim option))
        else pure rule) fun e ↦ ∃ text, e = .ignoreOption text := by
    refine hx.bind fun rule ↦ ?_
    split
    · exact hrefused
    · exact raises_ok rule
  unfold parse
  dsimp only
  split
  · exact hchecked _ (raises_ok _)
  · split
    · exact hchecked _ (raises_ok _)
    · exact hchecked _ hrefused

namespace OpenFile

variable {file description : Bytes} {settings : Settings} {header : Header}
  {format : FormatLayout} {catalog : Catalog Unit} {dims found : List ExtraDim}

/-- The last steps of an opening, once the extra dimensions are known. -/
def conclude (file : Bytes) (settings : Settings) (header : Header) (catalog : Catalog Unit)
    (extraDims : List ExtraDim) : Except Error OpenFile := do
  let layout := RecordLayout.ofFormat header.format header.scaling extraDims
  checkRecordLength header layout
  let ignored ← settings.ignored
  return { bytes := file, header, catalog, extraDims, layout, ignored }

/-- No step behind the choice of dimensions compares them. -/
theorem conclude_ne_extraDimMismatch (extraDims : List ExtraDim)
    (configured described : List (String × Storage)) :
    conclude file settings header catalog extraDims ≠
      .error (.extraDimMismatch configured described) := by
  have hraises : Raises (conclude file settings header catalog extraDims)
      (· ≠ .extraDimMismatch configured described) := by
    refine .bind ?_ fun _ ↦ .bind ?_ fun _ ↦ raises_ok _
    · rintro e he rfl
      unfold checkRecordLength at he
      split at he <;> cases he
    · intro e he hsame
      obtain ⟨option, -, hparse⟩ := exists_mem_of_mapM_eq_error he
      obtain ⟨text, hrefused⟩ := IgnoreRule.raises_parse option e hparse
      cases hrefused.symm.trans hsame
  exact fun h ↦ hraises _ h rfl

/-- An opening that got as far as the description of the dimensions goes on from the dimensions that
are chosen. -/
theorem ofBytes_eq_chooseDims (hheader : Header.decode file = .ok header)
    (hformat : formatOf header = .ok format) (hcatalog : catalogOf file header = .ok catalog)
    (hsettings : settings.selection false = .ok (.only dims))
    (hdescription :
      payload file catalog Vlr.extraBytesUser Vlr.extraBytesRecord = .ok description) :
    ofBytes file settings =
      chooseDims format.baseSize (ExtraDim.relocate format.baseSize dims) description >>=
        conclude file settings header catalog := by
  simp only [ofBytes, hheader, hformat, hcatalog, hsettings, hdescription, Bind.bind, Except.bind,
    Selection.explicit]
  rfl

/-- The choice between dimensions of the settings and those of a description. -/
theorem chooseDims_of_ne_nil {start : Int} {stated : List ExtraDim} (hstated : stated ≠ [])
    (hdescribed : description ≠ [])
    (hfound : Descriptor.toExtraDims description start = .ok found) :
    chooseDims start stated description =
      if ExtraDim.allAgree stated found then .ok found
      else .error (.extraDimMismatch (stated.map ExtraDim.declared)
        (found.map ExtraDim.declared)) := by
  have hdescription : description.isEmpty = false := by simpa using hdescribed
  have hsome : stated.isEmpty = false := by simpa using hstated
  rw [chooseDims, hdescription, hfound, hsome]
  rfl

/-- A description decides alone where the settings state no dimensions. -/
theorem chooseDims_nil {start : Int} (hdescribed : description ≠ [])
    (hfound : Descriptor.toExtraDims description start = .ok found) :
    chooseDims start [] description = .ok found := by
  have hdescription : description.isEmpty = false := by simpa using hdescribed
  rw [chooseDims, hdescription, hfound]
  rfl

/-- Both sides of a comparison stand without gaps behind the format. -/
theorem map_offset_of_agree (hsettings : settings.selection false = .ok (.only dims))
    (hfound : Descriptor.toExtraDims description format.baseSize = .ok found)
    (hagree : ExtraDim.allAgree (ExtraDim.relocate format.baseSize dims) found = true) :
    (ExtraDim.relocate format.baseSize dims).map (·.offset) = found.map (·.offset) := by
  obtain ⟨given, rfl, -⟩ := Selection.exists_of_parse_eq_only hsettings
  rw [Descriptor.toExtraDims_eq, map_eq_ok] at hfound
  obtain ⟨entries, -, rfl⟩ := hfound
  rw [ExtraDim.relocate_contiguous] at hagree ⊢
  exact ExtraDim.map_offset_of_allAgree hagree

/-- Without dimensions in the settings a file is opened with those that it describes. -/
theorem ofBytes_eq_conclude (hheader : Header.decode file = .ok header)
    (hformat : formatOf header = .ok format) (hcatalog : catalogOf file header = .ok catalog)
    (hdescription :
      payload file catalog Vlr.extraBytesUser Vlr.extraBytesRecord = .ok description)
    (hdescribed : description ≠ [])
    (hfound : Descriptor.toExtraDims description format.baseSize = .ok found) :
    ofBytes file { settings with extraDims := [] } =
      conclude file settings header catalog found := by
  have hnone : { settings with extraDims := [] }.selection false = .ok (.only []) := rfl
  rw [ofBytes_eq_chooseDims hheader hformat hcatalog hnone hdescription, ExtraDim.relocate,
    List.map_nil, chooseDims_nil hdescribed hfound]
  rfl

theorem extraDims_of_conclude {f : OpenFile}
    (h : conclude file settings header catalog dims = .ok f) : f.extraDims = dims := by
  simp only [conclude, bind_eq_ok, pure_eq_ok] at h
  obtain ⟨-, -, ignored, -, rfl⟩ := h
  rfl

/-- Dimensions that agree are the same at each place, and stand at the same offsets. -/
theorem agree_getElem? (hsettings : settings.selection false = .ok (.only dims))
    (hfound : Descriptor.toExtraDims description format.baseSize = .ok found)
    (hagree : ExtraDim.allAgree (ExtraDim.relocate format.baseSize dims) found = true) {i : Nat}
    {d e : ExtraDim} (hd : (ExtraDim.relocate format.baseSize dims)[i]? = some d)
    (he : found[i]? = some e) : d.name = e.name ∧ d.storage = e.storage ∧ d.offset = e.offset := by
  have hparts := congrArg (·[i]?) (ExtraDim.allAgree_iff.1 hagree)
  have hplaces := congrArg (·[i]?) (map_offset_of_agree hsettings hfound hagree)
  rw [List.getElem?_map, List.getElem?_map, hd, he] at hparts
  rw [List.getElem?_map, List.getElem?_map, hd, he] at hplaces
  simpa [and_assoc] using And.intro hparts hplaces

/-- A file and settings that both state extra dimensions, where everything in front of them can be
read. The file is refused as one with other dimensions exactly if the two lists differ in their
number, or at some place in name, type or size, and the refusal lists both. Otherwise it is opened
as without dimensions in the settings. In a file that is opened, each dimension of the settings
stands where the dimension stands that the points are read by. -/
theorem extraDimMismatch_iff_differ (hheader : Header.decode file = .ok header)
    (hformat : formatOf header = .ok format) (hcatalog : catalogOf file header = .ok catalog)
    (hsettings : settings.selection false = .ok (.only dims)) (hsome : dims ≠ [])
    (hdescription :
      payload file catalog Vlr.extraBytesUser Vlr.extraBytesRecord = .ok description)
    (hdescribed : description ≠ [])
    (hfound : Descriptor.toExtraDims description format.baseSize = .ok found) :
    let stated := ExtraDim.relocate format.baseSize dims
    ((∃ configured described, ofBytes file settings =
      .error (.extraDimMismatch configured described)) ↔ ExtraDim.Differ stated found) ∧
    (ExtraDim.Differ stated found → ofBytes file settings =
      .error (.extraDimMismatch (stated.map ExtraDim.declared) (found.map ExtraDim.declared))) ∧
    (¬ExtraDim.Differ stated found →
      ofBytes file settings = ofBytes file { settings with extraDims := [] }) ∧
    ∀ f, ofBytes file settings = .ok f → f.extraDims = found ∧ stated.length = found.length ∧
      ∀ (i : Nat) (d e : ExtraDim), stated[i]? = some d → f.extraDims[i]? = some e →
        d.name = e.name ∧ d.storage = e.storage ∧ d.offset = e.offset := by
  intro stated
  have hstated : stated ≠ [] := by simpa [stated, ExtraDim.relocate] using hsome
  have hopen := ofBytes_eq_chooseDims hheader hformat hcatalog hsettings hdescription
  rw [chooseDims_of_ne_nil hstated hdescribed hfound] at hopen
  by_cases hdiffer : ExtraDim.Differ stated found
  · have hrefused : ofBytes file settings = .error (.extraDimMismatch
        (stated.map ExtraDim.declared) (found.map ExtraDim.declared)) := by
      rw [hopen, if_neg (mt ExtraDim.allAgree_iff_not_differ.1 (not_not.2 hdiffer))]
      rfl
    exact ⟨iff_of_true ⟨_, _, hrefused⟩ hdiffer, fun _ ↦ hrefused, fun h ↦ absurd hdiffer h,
      fun f hf ↦ by cases hrefused.symm.trans hf⟩
  · have hagree := ExtraDim.allAgree_iff_not_differ.2 hdiffer
    have hconclude : ofBytes file settings = conclude file settings header catalog found := by
      rw [hopen, if_pos hagree]
      rfl
    refine ⟨iff_of_false ?_ hdiffer, fun h ↦ absurd h hdiffer, fun _ ↦ ?_, fun f hf ↦ ?_⟩
    · rintro ⟨configured, described, herror⟩
      exact conclude_ne_extraDimMismatch found configured described (hconclude.symm.trans herror)
    · rw [hconclude]
      exact (ofBytes_eq_conclude hheader hformat hcatalog hdescription hdescribed hfound).symm
    · have hdims := extraDims_of_conclude (hconclude ▸ hf)
      have hdeclared := ExtraDim.allAgree_iff.1 hagree
      refine ⟨hdims, by simpa using congrArg List.length hdeclared, fun i d e hd he ↦ ?_⟩
      rw [hdims] at he
      exact agree_getElem? hsettings hfound hagree hd he

/-- A file without points, of format 0, that describes a run of no bytes and a vector of two
components. -/
def tilted : Bytes :=
  Header.encode { Header.blank with offsetToPoints := 665, vlrCount := 1, recordLength := 24 } ++
    Item.encodeAll .little ((Vlr.of "LASF_Spec" 4 "" (Item.encodeAll .little
      (Descriptor.items { Descriptor.blank with name := "pad" } 0 0 ++
        Descriptor.items { Descriptor.blank with name := "tilt" } 14 0))).items .short)

/-- The vector named component by component, and under one name. -/
theorem extraDimMismatch_iff_differ_vector :
    (∃ f e,
      ofBytes tilted { Settings.standard with extraDims := ["tilt=int16", "tilt (1)=short"] } =
        .ok f ∧ f.extraDims[1]? = some e ∧ e.offset = 22) ∧
    ∃ configured described,
      ofBytes tilted { Settings.standard with extraDims := ["tilt=int16", "tilt=int16"] } =
        .error (.extraDimMismatch configured described) := by
  have hstages : (do
      let header ← Header.decode tilted
      let format ← formatOf header
      let catalog ← catalogOf tilted header
      let description ← payload tilted catalog Vlr.extraBytesUser Vlr.extraBytesRecord
      let found ← Descriptor.toExtraDims description format.baseSize
      return (format.baseSize, description.isEmpty, found) : Except Error _).toOption =
        some (20, false, [.plain "tilt" (.scalar (.signed .two)) 20,
          .plain "tilt (1)" (.scalar (.signed .two)) 22]) := by decide +kernel
  have hsteps := eq_ok_of_toOption hstages
  simp only [bind_eq_ok, pure_eq_ok, Prod.mk.injEq] at hsteps
  obtain ⟨header, hheader, format, hformat, catalog, hcatalog, description, hdescription, found,
    hfound, hbase, hdescribed, rfl⟩ := hsteps
  have hdescribed : description ≠ [] := by simpa using hdescribed
  constructor
  · have hopen : (ofBytes tilted { Settings.standard with
        extraDims := ["tilt=int16", "tilt (1)=short"] }).toOption.isSome = true := by
      decide +kernel
    obtain ⟨f, hf⟩ := isSome_toOption.1 hopen
    have hselection : Settings.selection { Settings.standard with
        extraDims := ["tilt=int16", "tilt (1)=short"] } false =
          .ok (.only [.plain "tilt" (.scalar (.signed .two)) 0,
            .plain "tilt (1)" (.scalar (.signed .two)) 2]) :=
      eq_ok_of_toOption (by decide +kernel)
    obtain ⟨-, -, -, hopened⟩ := extraDimMismatch_iff_differ hheader hformat hcatalog hselection
      (by simp) hdescription hdescribed hfound
    obtain ⟨hdims, -, hplaced⟩ := hopened f hf
    rw [hbase] at hplaced
    have hsecond := congrArg (·[1]?) hdims
    obtain ⟨-, -, hoffset⟩ := hplaced 1 _ _ rfl hsecond
    exact ⟨f, _, hf, hsecond, hoffset.symm⟩
  · have hselection : Settings.selection { Settings.standard with
        extraDims := ["tilt=int16", "tilt=int16"] } false =
          .ok (.only [.plain "tilt" (.scalar (.signed .two)) 0,
            .plain "tilt" (.scalar (.signed .two)) 2]) :=
      eq_ok_of_toOption (by decide +kernel)
    obtain ⟨hrefused, -⟩ := extraDimMismatch_iff_differ hheader hformat hcatalog hselection
      (by simp) hdescription hdescribed hfound
    have hnames : "tilt" ≠ "tilt (1)" := by decide
    exact hrefused.2 (.inr ⟨1, _, _, rfl, rfl, .inl hnames⟩)

end OpenFile

end LasFile
