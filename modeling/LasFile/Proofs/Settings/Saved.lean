import LasFile.Proofs.Settings.Number

/-!
# Saved settings

Settings that are written and read again are the same in everything but their numbers, whatever the
strings among them hold. The numbers come back as `Double.reread` has it: all of them do if they are
short, and the last place of one with sixteen digits or more can change.
-/

namespace LasFile

open Json

namespace Axes

variable {α β : Type}

/-- A value for each axis, if there is one for all of them. -/
def traverse (f : α → Option β) (a : Axes α) : Option (Axes β) := do
  return ⟨← f a.x, ← f a.y, ← f a.z⟩

theorem traverse_eq_some {f : α → Option β} {a : Axes α} {b : Axes β} :
    a.traverse f = some b ↔ f a.x = some b.x ∧ f a.y = some b.y ∧ f a.z = some b.z := by
  obtain ⟨x, y, z⟩ := b
  simp only [traverse, Option.bind_eq_bind, Option.bind_eq_some_iff, Option.pure_def,
    Option.some.injEq, Axes.mk.injEq]
  constructor
  · rintro ⟨_, hx, _, hy, _, hz, rfl, rfl, rfl⟩
    exact ⟨hx, hy, hz⟩
  · rintro ⟨hx, hy, hz⟩
    exact ⟨x, hx, y, hy, z, hz, rfl, rfl, rfl⟩

/-- There are values for all axes if there is one for each of them. -/
theorem exists_traverse_iff {f : α → Option β} {p : α → β → Bool} {a : Axes α} :
    (∃ b, a.traverse f = some b ∧ (a.zipWith p b).all (·) = true) ↔
      ∀ x ∈ a.toList, ∃ y, f x = some y ∧ p x y = true := by
  simp only [all, zipWith, toList, List.all_cons, List.all_nil, Bool.and_true, Bool.and_eq_true,
    List.forall_mem_cons, List.not_mem_nil, false_implies, implies_true, and_true]
  constructor
  · rintro ⟨b, hb, hx, hy, hz⟩
    obtain ⟨hfx, hfy, hfz⟩ := traverse_eq_some.1 hb
    exact ⟨⟨_, hfx, hx⟩, ⟨_, hfy, hy⟩, ⟨_, hfz, hz⟩⟩
  · rintro ⟨⟨x, hfx, hx⟩, ⟨y, hfy, hy⟩, ⟨z, hfz, hz⟩⟩
    exact ⟨⟨x, y, z⟩, traverse_eq_some.2 ⟨hfx, hfy, hfz⟩, hx, hy, hz⟩

theorem exists_traverse {f : α → Option β} {a : Axes α} (h : ∀ x ∈ a.toList, (f x).isSome = true) :
    ∃ b, a.traverse f = some b := by
  simp only [toList, List.forall_mem_cons, Option.isSome_iff_exists] at h
  obtain ⟨⟨x, hx⟩, ⟨y, hy⟩, ⟨z, hz⟩, -⟩ := h
  exact ⟨⟨x, y, z⟩, traverse_eq_some.2 ⟨hx, hy, hz⟩⟩

/-- Values that are kept on every axis. -/
theorem traverse_eq_self {f : α → Option α} {a : Axes α} (h : ∀ x ∈ a.toList, f x = some x) :
    a.traverse f = some a := by
  simp only [toList, List.forall_mem_cons] at h
  exact traverse_eq_some.2 ⟨h.1, h.2.1, h.2.2.1⟩

end Axes

namespace Json.Value

/-! ## Values of settings -/

/-- A byte is read as it was written. -/
theorem spelled_byte (b : UInt8) :
    ∃ v, Spelled (toString b).toList v ∧ v.byte? = some b ∧ v.optionalByte? = some (some b) := by
  have htext : (toString b).toList = (Spelling.ofNat b.toNat).text := by
    show (toString b.toNat).toList = _
    simp [Spelling.text, Spelling.ofNat]
  have hbyte : (number ((Spelling.ofNat b.toNat).numeral false)).byte? = some b := by
    simp [byte?, Spelling.toNat?_ofNat, b.toNat_lt]
  refine ⟨_, htext ▸ spelled_of_valid (Spelling.valid_ofNat _), hbyte, ?_⟩
  rw [optionalByte?, hbyte, Option.map_some]
  exact fun h ↦ by cases h

/-- A byte that may be missing. -/
theorem spelled_optionalByte (b : Option UInt8) :
    ∃ v, Spelled ((b.map toString).getD "null").toList v ∧ v.optionalByte? = some b := by
  cases b with
  | none => exact ⟨null, spelled_null, rfl⟩
  | some b =>
    obtain ⟨v, hv, -, hbyte⟩ := spelled_byte b
    exact ⟨v, hv, hbyte⟩

/-- Three finite numbers. -/
theorem spelled_axes {a : Axes Double} (h : ∀ d ∈ a.toList, d.isFinite = true) :
    ∃ v, Spelled (Settings.renderArray (a.toList.map Settings.renderDouble)).toList v ∧
      v.axes? = a.traverse Double.reread := by
  obtain ⟨x, y, z⟩ := a
  simp only [Axes.toList, List.forall_mem_cons] at h
  obtain ⟨hx, hy, hz, -⟩ := h
  obtain ⟨nx, hx, hreadx⟩ := Double.spelled_renderDouble hx
  obtain ⟨ny, hy, hready⟩ := Double.spelled_renderDouble hy
  obtain ⟨nz, hz, hreadz⟩ := Double.spelled_renderDouble hz
  refine ⟨array [number nx, number ny, number nz], spelled_renderArray ?_, ?_⟩
  · exact .cons hx (.cons hy (.cons hz .nil))
  · simp only [axes?, double?, hreadx, hready, hreadz, Axes.traverse]

/-- Strings come back whatever they hold. -/
theorem spelled_texts (texts : List String) :
    ∃ v, Spelled (Settings.renderArray (texts.map Settings.renderText)).toList v ∧
      v.texts? = some texts := by
  refine ⟨array (texts.map fun text ↦ string (some text)), spelled_renderArray ?_, ?_⟩
  · rw [List.map_map, List.forall₂_map_left_iff, List.forall₂_map_right_iff, List.forall₂_same]
    exact fun text _ ↦ spelled_renderText text
  · have htexts : texts.mapM (text? ∘ fun text ↦ string (some text)) = some (texts.map id) :=
      List.mapM_pure
    rw [texts?, List.mapM_map, htexts, List.map_id]

theorem compression?_name (c : Compression) :
    (string (some c.name)).compression? = some c := by
  cases c <;> decide

end Json.Value

namespace Settings

open Json.Value

/-- The numbers among the settings. -/
def numbers (s : Settings) : List Double := s.scale.toList ++ s.offset.toList

/-- The settings that are read where settings were written. -/
def reread (s : Settings) : Option Settings := do
  let scale ← s.scale.traverse Double.reread
  let offset ← s.offset.traverse Double.reread
  return { s with scale, offset }

variable {s : Settings}

/-- An object with keys that can be read is read field by field. -/
theorem ofJson?_object (fields : List (String × Json.Value)) :
    ofJson? (object (fields.map fun field ↦ (some field.1, field.2))) = ofFields fields := by
  have hfields : fields.mapM ((fun part : Option String × Json.Value ↦
      part.1.map fun name ↦ (name, part.2)) ∘ fun field ↦ (some field.1, field.2)) =
        some (fields.map id) := List.mapM_pure
  rw [← List.mapM_map, List.map_id] at hfields
  show (List.mapM (fun part : Option String × Json.Value ↦
    part.1.map fun name ↦ (name, part.2)) _ >>= ofFields) = _
  rw [hfields]
  rfl

/-- The seven settings, stated in their order. -/
theorem ofFields_zip {format scale offset dims ignored compression minor : Json.Value}
    (hformat : format.byte? = some s.pointFormat)
    (hscale : scale.axes? = s.scale.traverse Double.reread)
    (hoffset : offset.axes? = s.offset.traverse Double.reread)
    (hdims : dims.texts? = some s.extraDims) (hignored : ignored.texts? = some s.ignoreVlrs)
    (hcompression : compression.compression? = some s.compression)
    (hminor : minor.optionalByte? = some s.minorVersion) :
    ofFields (fieldNames.zip [format, scale, offset, dims, ignored, compression, minor]) =
      s.reread := by
  cases hs : s.scale.traverse Double.reread with
  | none => simp [ofFields, fieldNames, withField, reread, hformat, hscale, hs]
  | some a =>
    cases ho : s.offset.traverse Double.reread with
    | none => simp [ofFields, fieldNames, withField, reread, hformat, hscale, hoffset, hs, ho]
    | some b =>
      simp [ofFields, fieldNames, withField, reread, hformat, hscale, hoffset, hdims, hignored,
        hcompression, hminor, hs, ho]

/-- An object that is laid out field by field. -/
theorem spelled_render {fields : List (Option String × Json.Value)}
    (h : List.Forall₂ SpelledField ((s.rendered.map fun (name, value) ↦
      "  \"" ++ name ++ "\": " ++ value).map String.toList) fields) (hsome : fields ≠ []) :
    Spelled s.render.toList (object fields) := by
  have htext : s.render.toList = ['\x7b', '\n'] ++ ([',', '\n'].intercalate
      ((s.rendered.map fun (name, value) ↦ "  \"" ++ name ++ "\": " ++ value).map
        String.toList) ++ ['\n', '\x7d']) := by
    simp [render]
  rw [htext]
  exact spelled_object h hsome

/-- Everything but the numbers is read as it was written. -/
theorem ofText_render (hfinite : ∀ d ∈ s.numbers, d.isFinite = true) :
    ofText s.render = s.reread.elim (.error .settings) .ok := by
  obtain ⟨hscales, hoffsets⟩ := List.forall_mem_append.1 hfinite
  obtain ⟨format, hformat, hformat', -⟩ := spelled_byte s.pointFormat
  obtain ⟨scale, hscale, hscale'⟩ := spelled_axes hscales
  obtain ⟨offset, hoffset, hoffset'⟩ := spelled_axes hoffsets
  obtain ⟨dims, hdims, hdims'⟩ := spelled_texts s.extraDims
  obtain ⟨ignored, hignored, hignored'⟩ := spelled_texts s.ignoreVlrs
  obtain ⟨minor, hminor, hminor'⟩ := spelled_optionalByte s.minorVersion
  have hcompression := spelled_renderText s.compression.name
  have hfields := ofFields_zip hformat' hscale' hoffset' hdims' hignored'
    (compression?_name s.compression) hminor'
  have hspelled := spelled_render (.cons (spelledField_of_spelled (by decide) hformat)
    (.cons (spelledField_of_spelled (by decide) hscale)
    (.cons (spelledField_of_spelled (by decide) hoffset)
    (.cons (spelledField_of_spelled (by decide) hdims)
    (.cons (spelledField_of_spelled (by decide) hignored)
    (.cons (spelledField_of_spelled (by decide) hcompression)
    (.cons (spelledField_of_spelled (by decide) hminor) .nil))))))) (List.cons_ne_nil _ _)
  have hread := (ofJson?_object (fieldNames.zip
    [format, scale, offset, dims, ignored, string (some s.compression.name), minor])).trans hfields
  have htext : Json.Value.ofText s.render >>= ofJson? = s.reread := by
    rw [hspelled.ofText, Option.bind_eq_bind, Option.bind_some]
    exact hread
  rw [ofText, htext]
  cases s.reread <;> rfl

/-- Settings are equal to those that are read if each number is equal to the one that is read. -/
theorem exists_reread_iff : (∃ again, s.reread = some again ∧ s.ieeeEq again = true) ↔
    ∀ d ∈ s.numbers, ∃ e, d.reread = some e ∧ d.ieeeEq e = true := by
  rw [numbers, List.forall_mem_append, ← Axes.exists_traverse_iff, ← Axes.exists_traverse_iff]
  constructor
  · rintro ⟨again, hagain, hequal⟩
    simp only [reread, Option.bind_eq_bind, Option.bind_eq_some_iff, Option.pure_def,
      Option.some.injEq] at hagain
    obtain ⟨scale, hscale, offset, hoffset, rfl⟩ := hagain
    simp only [ieeeEq, Bool.and_eq_true] at hequal
    exact ⟨⟨scale, hscale, hequal.1.2⟩, ⟨offset, hoffset, hequal.2⟩⟩
  · rintro ⟨⟨scale, hscale, hscales⟩, offset, hoffset, hoffsets⟩
    refine ⟨{ s with scale, offset }, by rw [reread, hscale, hoffset]; rfl, ?_⟩
    simp [ieeeEq, hscales, hoffsets]

/-- Settings with finite numbers can be read again, and nothing but numbers changes. -/
theorem exists_ofText_render (hfinite : ∀ d ∈ s.numbers, d.isFinite = true) :
    ∃ again, ofText s.render = .ok again ∧
      s.scale.traverse Double.reread = some again.scale ∧
      s.offset.traverse Double.reread = some again.offset ∧
      again = { s with scale := again.scale, offset := again.offset } := by
  obtain ⟨hscales, hoffsets⟩ := List.forall_mem_append.1 hfinite
  obtain ⟨scale, hscale⟩ := Axes.exists_traverse fun d hd ↦ Double.isSome_reread (hscales d hd)
  obtain ⟨offset, hoffset⟩ := Axes.exists_traverse fun d hd ↦ Double.isSome_reread (hoffsets d hd)
  refine ⟨{ s with scale, offset }, ?_, hscale, hoffset, rfl⟩
  rw [ofText_render hfinite, reread, hscale, hoffset]
  rfl

/-- Settings with finite numbers that are saved and read again. They can always be read, and nothing
but numbers changes. What is read equals what was saved exactly if each number equals the double
that is computed from its digits, and it is the same if each number is short. -/
theorem saved_equal_iff (hfinite : ∀ d ∈ s.numbers, d.isFinite = true) :
    (∃ again, ofText s.render = .ok again ∧
      s.scale.traverse Double.reread = some again.scale ∧
      s.offset.traverse Double.reread = some again.offset ∧
      again = { s with scale := again.scale, offset := again.offset }) ∧
    ((∃ again, ofText s.render = .ok again ∧ s.ieeeEq again = true) ↔
      ∀ d ∈ s.numbers, ∃ e, d.reread = some e ∧ d.ieeeEq e = true) ∧
    ((∀ d ∈ s.numbers, d.Short) → ofText s.render = .ok s) := by
  have htext := ofText_render hfinite
  refine ⟨exists_ofText_render hfinite, ?_, fun hshort ↦ ?_⟩
  · rw [htext, ← exists_reread_iff]
    cases s.reread <;> simp
  · have hkept : ∀ d ∈ s.numbers, d.reread = some d :=
      fun d hd ↦ Double.reread_of_short (hfinite d hd) (hshort d hd)
    obtain ⟨hscales, hoffsets⟩ := List.forall_mem_append.1 hkept
    rw [htext, reread, Axes.traverse_eq_self hscales, Axes.traverse_eq_self hoffsets]
    rfl

/-- The standard settings come back. The offset `2 ^ 53 - 1` is written as `9007199254740991.0`, of
which the digits, with the zero behind the point, are no double. -/
theorem saved_equal_iff_offset :
    ofText standard.render = .ok standard ∧
    ¬∃ again, ofText { standard with
        offset := ⟨⟨0x433fffffffffffff⟩, .zero, .zero⟩ }.render = .ok again ∧
      { standard with offset := ⟨⟨0x433fffffffffffff⟩, .zero, .zero⟩ }.ieeeEq again = true := by
  constructor
  · exact (saved_equal_iff (by decide +kernel)).2.2 (by decide +kernel)
  · intro h
    have hall := (saved_equal_iff (by decide +kernel)).2.1.1 h
    obtain ⟨e, hread, hequal⟩ := hall ⟨0x433fffffffffffff⟩ (by decide +kernel)
    have hother : Double.reread ⟨0x433fffffffffffff⟩ = some ⟨0x433ffffffffffffe⟩ := by
      decide +kernel
    rw [hother, Option.some.injEq] at hread
    subst hread
    revert hequal
    decide

end Settings

end LasFile
