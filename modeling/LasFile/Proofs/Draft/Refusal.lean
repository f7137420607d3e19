import LasFile.Proofs.Draft.Run

/-!
# Refused points

A draft whose layout is settled is left as it was by a point that it refuses. While the layout is
still open, which is so only until a start went through, a point settles it before its values are
looked at: if the record would be too long nothing happens, and otherwise the dimensions of the
refused point stay, as if the new draft had been given them.
-/

namespace LasFile.Draft

open Outcome

/-- What an open layout says of a draft: that it is the new one, or that it holds a record which
lets no start through. -/
structure Untouched (new d : Draft) (accepted : List Point) : Prop where
  open_of_open : d.layout = none → new.layout = none
  accepted_of_open : d.layout = none → accepted = []
  eq_or_stuck : d.layout = none → d = new ∨ ∃ v ∈ d.vlrs, ∃ e, v.encode .short = .error e

theorem untouched_new (new : Draft) : Untouched new new [] :=
  ⟨id, fun _ ↦ rfl, fun _ ↦ .inl rfl⟩

/-- Nothing has to be kept once the layout is settled. -/
theorem untouched_of_layout {new d : Draft} {accepted : List Point} {layout : RecordLayout}
    (h : d.layout = some layout) : Untouched new d accepted := by
  constructor <;> intro hopen <;> cases h.symm.trans hopen

/-- A start that goes through on an open layout does so on the new draft. -/
theorem Untouched.eq_new_of_start {new d s : Draft} {accepted : List Point}
    (h : Untouched new d accepted) (hopen : d.layout = none) {dims : List ExtraDim}
    (hstart : start dims d = .ok () s) : d = new := by
  obtain ⟨prepared, blocks, hprepared, hblocks, -⟩ := start_eq_ok.1 hstart
  obtain ⟨format, records, -, -, -, rfl⟩ := prepare_eq_ok.1 hprepared
  rcases h.eq_or_stuck hopen with heq | ⟨v, hv, e, herror⟩
  · exact heq
  · obtain ⟨part, hpart⟩ := exists_eq_ok_of_mapM_eq_ok hblocks v (List.mem_append_left records hv)
    cases hpart.symm.trans herror

/-- A start that gives up leaves the draft alone or stuck. -/
theorem Untouched.start_error {new d s : Draft} {accepted : List Point} {e : Error}
    (h : Untouched new d accepted) {dims : List ExtraDim} (hstart : start dims d = .error e s) :
    Untouched new s accepted := by
  rcases start_cases dims d with ⟨e, -, hresult⟩ | ⟨prepared, blocks, -, -, hresult⟩ |
    ⟨prepared, e, sink, hprepared, hblocks, hresult⟩ <;> cases hresult.symm.trans hstart
  · exact h
  · obtain ⟨format, records, -, -, -, rfl⟩ := prepare_eq_ok.1 hprepared
    obtain ⟨v, hv, herror⟩ := exists_mem_of_mapM_eq_error hblocks
    exact ⟨h.open_of_open, h.accepted_of_open, fun _ ↦ .inr ⟨v, hv, e, herror⟩⟩

/-- A start settles the layout. -/
theorem exists_layout_of_start {dims : List ExtraDim} {d s : Draft}
    (h : start dims d = .ok () s) : ∃ layout, s.layout = some layout := by
  obtain ⟨prepared, blocks, -, -, rfl⟩ := start_eq_ok.1 h
  exact ⟨_, rfl⟩

/-- A refused point leaves a draft with a settled layout as it was. -/
theorem eq_of_writePoint_error {d next : Draft} {layout : RecordLayout}
    (hlayout : d.layout = some layout) {p : Point} {e : Error}
    (h : writePoint p d = .error e next) : next = d := by
  rw [writePoint_of_layout hlayout] at h
  cases hencode : layout.encode d.header.recordLength.toNat p with
  | ok record =>
    rw [hencode] at h
    cases h
  | error e =>
    rw [hencode] at h
    cases h
    rfl

/-- A point that an open draft refuses stops the start or finds it done. -/
theorem writePoint_error_of_open {d next : Draft} (hopen : d.layout = none) {p : Point} {e : Error}
    (h : writePoint p d = .error e next) :
    start (d.dimsOf p) d = .error e next ∨ start (d.dimsOf p) d = .ok () next := by
  rw [writePoint_of_open hopen] at h
  cases hstart : start (d.dimsOf p) d with
  | error e s =>
    rw [hstart] at h
    exact .inl h
  | ok _ s =>
    rw [hstart] at h
    obtain ⟨layout, hlayout⟩ := exists_layout_of_start hstart
    rw [eq_of_writePoint_error hlayout h]
    exact .inr rfl

/-- An accepted point leaves the layout settled. -/
theorem exists_layout_of_writePoint {d next : Draft} {p : Point}
    (h : writePoint p d = .ok () next) : ∃ layout, next.layout = some layout := by
  have hsettled : ∀ {s : Draft} {layout : RecordLayout}, s.layout = some layout →
      writePoint p s = .ok () next → ∃ layout, next.layout = some layout := by
    intro s layout hlayout hwrite
    rw [writePoint_of_layout hlayout] at hwrite
    cases hencode : layout.encode s.header.recordLength.toNat p with
    | ok record =>
      rw [hencode] at hwrite
      cases hwrite
      exact ⟨layout, hlayout⟩
    | error e =>
      rw [hencode] at hwrite
      cases hwrite
  cases hlayout : d.layout with
  | some layout => exact hsettled hlayout h
  | none =>
    rw [writePoint_of_open hlayout] at h
    cases hstart : start (d.dimsOf p) d with
    | error e s =>
      rw [hstart] at h
      cases h
    | ok _ s =>
      rw [hstart] at h
      obtain ⟨layout, hs⟩ := exists_layout_of_start hstart
      exact hsettled hs h

/-! ## Runs -/

theorem untouched_writeAll (new : Draft) (points : List Point) :
    Untouched new (new.writeAll points).draft (new.writeAll points).accepted := by
  have hok : ∀ {d next : Draft} {p : Point} {accepted : List Point}, Untouched new d accepted →
      writePoint p d = .ok () next → Untouched new next (accepted ++ [p]) := by
    intro d next p accepted _ hwrite
    obtain ⟨layout, hlayout⟩ := exists_layout_of_writePoint hwrite
    exact untouched_of_layout hlayout
  have herror : ∀ {d next : Draft} {p : Point} {e : Error} {accepted : List Point},
      Untouched new d accepted → writePoint p d = .error e next → Untouched new next accepted := by
    intro d next p e accepted h hwrite
    cases hlayout : d.layout with
    | some layout =>
      rw [eq_of_writePoint_error hlayout hwrite]
      exact h
    | none =>
      rcases writePoint_error_of_open hlayout hwrite with hstart | hstart
      · exact h.start_error hstart
      · obtain ⟨layout, hs⟩ := exists_layout_of_start hstart
        exact untouched_of_layout hs
  exact writeAll_invariant (I := Untouched new) hok herror (untouched_new new) points

/-- What a refused point does, after any run. With a settled layout nothing is changed. The layout
is open only while all dimensions are asked for and no point was accepted: then nothing is changed
if records would be too long, and a start that goes through with the dimensions of the refused point
is all that happens, and it happens to the new draft. -/
theorem writePoint_refused {memory : Bytes} {created : CreationDate} {settings : Settings}
    {vlrs : List Vlr} {new d next : Draft} {points : List Point} {p : Point} {e : Error}
    (hcreate : create memory created settings vlrs = .ok new)
    (hreached : (new.writeAll points).draft = d) (hrefused : writePoint p d = .error e next) :
    (d.layout ≠ none → next = d) ∧
    (d.layout = none →
      settings.selection true = .ok .all ∧ (new.writeAll points).accepted = [] ∧
      (∀ error, prepare (d.dimsOf p) d = .error error → next = d) ∧
      (∀ s, start (d.dimsOf p) d = .ok () s → d = new ∧ next = s ∧ next.tally = .empty)) := by
  have hrun := untouched_writeAll new points
  rw [hreached] at hrun
  constructor
  · intro hsettled
    obtain ⟨layout, hlayout⟩ := Option.ne_none_iff_exists'.1 hsettled
    exact eq_of_writePoint_error hlayout hrefused
  · intro hopen
    obtain ⟨format, minor, selection, -, -, hselection, hnew⟩ := create_eq_ok hcreate
    cases selection with
    | only dims =>
      obtain ⟨layout, hlayout⟩ := exists_layout_of_start hnew
      cases hlayout.symm.trans (hrun.open_of_open hopen)
    | all =>
      refine ⟨hselection, hrun.accepted_of_open hopen, fun error hprepare ↦ ?_, fun s hstart ↦ ?_⟩
      · rcases writePoint_error_of_open hopen hrefused with hfailed | hdone
        · cases (start_of_prepare_error hprepare).symm.trans hfailed
          rfl
        · cases (start_of_prepare_error hprepare).symm.trans hdone
      · have heq := hrun.eq_new_of_start hopen hstart
        rcases writePoint_error_of_open hopen hrefused with hfailed | hdone
        · cases hstart.symm.trans hfailed
        · cases hstart.symm.trans hdone
          obtain ⟨prepared, blocks, hprepared, -, rfl⟩ := start_eq_ok.1 hstart
          obtain ⟨format, records, -, -, -, rfl⟩ := prepare_eq_ok.1 hprepared
          rw [heq, hnew]
          exact ⟨rfl, rfl, rfl⟩

/-- A point with a dimension `a` of its own and an intensity that fits no record. -/
def tooBright : Point :=
  (Point.empty.set .intensity (.unsigned 70000)).set (.user "a") (.unsigned 1)

/-- With the dimension named in the settings, refusing the point after another one was accepted
changes nothing. -/
theorem writePoint_refused_of_named :
    ∃ (new d next : Draft) (e : Error),
      create [] ⟨0, 0⟩ { Settings.standard with extraDims := ["a = uint8"] } [] = .ok new ∧
      (new.writeAll [.set .empty (.user "a") (.unsigned 1)]).draft = d ∧
      writePoint tooBright d = .error e next ∧ d.tally.count = 1 ∧ next = d := by
  have hrun : (do
      let new ← create [] ⟨0, 0⟩ { Settings.standard with extraDims := ["a = uint8"] } []
      let d := (new.writeAll [.set .empty (.user "a") (.unsigned 1)]).draft
      return (d.layout.isSome, d.tally.count,
        match writePoint tooBright d with
        | .ok _ _ => true
        | .error _ _ => false) : Except Error _).toOption = some (true, 1, false) := by
    decide +kernel
  have hsteps := eq_ok_of_toOption hrun
  simp only [bind_eq_ok, pure_eq_ok, Prod.mk.injEq] at hsteps
  obtain ⟨new, hcreate, hlayout, hcount, hanswer⟩ := hsteps
  generalize hreached : (new.writeAll _).draft = d at hlayout hcount hanswer
  cases hrefused : writePoint tooBright d with
  | ok _ next =>
    rw [hrefused] at hanswer
    cases hanswer
  | error e next =>
    have hsettled : d.layout ≠ none := Option.isSome_iff_ne_none.1 hlayout
    exact ⟨new, d, next, e, hcreate, hreached, hrefused, hcount,
      (writePoint_refused hcreate hreached hrefused).1 hsettled⟩

/-- Settings of format 0 that ask for all dimensions. -/
def allDims : Settings := { Settings.standard with pointFormat := 0, extraDims := ["all"] }

theorem sampled_tooBright :
    Selection.sampled tooBright 0 = [.plain "a" (.scalar (.unsigned .eight)) 0] := by
  have hfields : (tooBright.fields.filter fun field ↦
      !(FormatLayout.dimensionsOf 0).contains field.1) = [(.user "a", .unsigned 1)] := by
    decide +kernel
  have hunplaced : Selection.unplaced tooBright 0 = [(.user "a", .unsigned 1)] := by
    calc Selection.unplaced tooBright 0
        = (tooBright.fields.filter fun field ↦
            !(FormatLayout.dimensionsOf 0).contains field.1).mergeSort
              fun a b ↦ a.1.name ≤ b.1.name := rfl
      _ = [(.user "a", .unsigned 1)] := by rw [hfields, List.mergeSort_singleton]
  rw [Selection.sampled, hunplaced]
  rfl

/-- A refused point does change the header and the file of a draft whose layout is open. -/
theorem writePoint_refused_settles :
    ∃ (new next : Draft) (e : Error), create [] ⟨0, 0⟩ allDims [] = .ok new ∧
      writePoint tooBright new = .error e next ∧
      next.header ≠ new.header ∧ next.close ≠ new.close := by
  let new := origin [] ⟨0, 0⟩ allDims [] 2
  have hcreate : create [] ⟨0, 0⟩ allDims [] = .ok new :=
    eq_ok_of_toOption (by decide +kernel)
  have hdims : new.dimsOf tooBright = [.plain "a" (.scalar (.unsigned .eight)) 20] := by
    have hformat : new.header.format = 0 := by decide
    rw [dimsOf, hformat, sampled_tooBright]
    decide
  have hstart : (do
      let prepared ← prepare [.plain "a" (.scalar (.unsigned .eight)) 20] new
      let blocks ← prepared.vlrs.mapM (·.encode .short)
      let next := prepared.started [.plain "a" (.scalar (.unsigned .eight)) 20] blocks
      return (next.header.recordLength, (next.encodePoint tooBright).isOk,
        next.close.toOption.map List.length) : Except Error _).toOption =
      some (28, false, some 473) := by decide +kernel
  have hsteps := eq_ok_of_toOption hstart
  simp only [bind_eq_ok, pure_eq_ok, Prod.mk.injEq] at hsteps
  obtain ⟨prepared, hprepared, blocks, hblocks, hlength, hencode, hclose⟩ := hsteps
  generalize hnext : prepared.started _ blocks = next at hlength hencode hclose
  have hlayout : next.layout = some (next.layout.getD .unconfigured) := by
    rw [← hnext]
    rfl
  obtain ⟨e, herror⟩ : ∃ e, next.encodePoint tooBright = .error e := by
    cases hresult : next.encodePoint tooBright with
    | error e => exact ⟨e, rfl⟩
    | ok record => simp [hresult, Except.isOk, Except.toBool] at hencode
  refine ⟨new, next, e, hcreate, ?_, ?_, ?_⟩
  · rw [writePoint_of_open rfl, hdims, start_of_ok hprepared hblocks, hnext]
    simp only [writePoint_of_layout hlayout]
    rw [← encodePoint, herror]
  · intro heq
    have hfirst : new.header.recordLength = 20 := by decide
    rw [heq, hfirst] at hlength
    cases hlength
  · intro heq
    have hfirst : new.close.toOption.map List.length = some 227 := by decide +kernel
    rw [heq, hfirst] at hclose
    cases hclose

end LasFile.Draft
