import LasFile.OpenFile
import LasFile.Proofs.Draft.Run
import LasFile.Proofs.Draft.Tally
import LasFile.Proofs.Settings.Format

/-!
# Counts of finished files

Whatever happens in a run, the tally is that of the accepted points and the version and the format
stay those of the new draft. The header of the finished file stands at its beginning, so that an
opened file states the number of accepted points, with one exception: a file before version 1.4
states none if a point of a return past the fifth was accepted.
-/

namespace LasFile.Draft

open Outcome

/-- A draft that came from another one by accepting some points: these are counted, and version,
format and grid are as they were. -/
structure Gathers (d next : Draft) (points : List Point) : Prop where
  tally : next.tally = points.foldl Tally.add d.tally
  version : next.header.version = d.header.version
  formatByte : next.header.formatByte = d.header.formatByte
  scaling : next.header.scaling = d.header.scaling

namespace Gathers

theorem refl (d : Draft) : Gathers d d [] := ⟨rfl, rfl, rfl, rfl⟩

theorem trans {d between next : Draft} {points more : List Point} (h : Gathers d between points)
    (hnext : Gathers between next more) : Gathers d next (points ++ more) where
  tally := by rw [hnext.tally, h.tally, List.foldl_append]
  version := hnext.version.trans h.version
  formatByte := hnext.formatByte.trans h.formatByte
  scaling := hnext.scaling.trans h.scaling

end Gathers

/-! ## Steps -/

theorem gathers_of_prepare {dims : List ExtraDim} {d prepared : Draft}
    (h : prepare dims d = .ok prepared) : Gathers d prepared [] := by
  obtain ⟨format, records, -, -, -, rfl⟩ := prepare_eq_ok.1 h
  exact ⟨rfl, rfl, rfl, rfl⟩

/-- A start counts nothing, whether or not it goes through. -/
theorem gathers_start (dims : List ExtraDim) (d : Draft) :
    match start dims d with
    | .ok () s => Gathers d s []
    | .error _ s => Gathers d s [] := by
  rcases start_cases dims d with ⟨e, -, hstart⟩ | ⟨prepared, blocks, hprepared, -, hstart⟩ |
    ⟨prepared, e, sink, hprepared, -, hstart⟩
  · rw [hstart]
    exact .refl d
  · have hform := gathers_of_prepare hprepared
    rw [hstart]
    exact ⟨hform.tally, hform.version, hform.formatByte, hform.scaling⟩
  · have hform := gathers_of_prepare hprepared
    rw [hstart]
    exact ⟨hform.tally, hform.version, hform.formatByte, hform.scaling⟩

/-- A point of a draft whose layout is settled is counted if it is accepted. -/
theorem gathers_writePoint_of_layout {d : Draft} {layout : RecordLayout}
    (hlayout : d.layout = some layout) (p : Point) :
    match writePoint p d with
    | .ok () s => Gathers d s [p]
    | .error _ s => Gathers d s [] := by
  rw [writePoint_of_layout hlayout]
  cases layout.encode d.header.recordLength.toNat p with
  | ok record => exact ⟨rfl, rfl, rfl, rfl⟩
  | error e => exact .refl d

/-- A point is counted if it is accepted, also where it settles the layout. -/
theorem gathers_writePoint (p : Point) (d : Draft) :
    match writePoint p d with
    | .ok () s => Gathers d s [p]
    | .error _ s => Gathers d s [] := by
  cases hlayout : d.layout with
  | some layout => exact gathers_writePoint_of_layout hlayout p
  | none =>
    have hstart := gathers_start (d.dimsOf p) d
    rw [writePoint_of_open hlayout]
    cases hresult : start (d.dimsOf p) d with
    | error e s =>
      rw [hresult] at hstart
      exact hstart
    | ok _ s =>
      obtain ⟨prepared, blocks, -, -, rfl⟩ := start_eq_ok.1 hresult
      rw [hresult] at hstart
      have hwrite := gathers_writePoint_of_layout
        (show (prepared.started (d.dimsOf p) blocks).layout = some _ from rfl) p
      simp only
      split <;> rename_i hpoint <;> rw [hpoint] at hwrite <;> exact hstart.trans hwrite

/-! ## Runs -/

theorem gathers_writeAll (d : Draft) (points : List Point) :
    Gathers d (d.writeAll points).draft (d.writeAll points).accepted := by
  induction points generalizing d with
  | nil => exact .refl d
  | cons p ps ih =>
    have hstep := gathers_writePoint p d
    cases hpoint : writePoint p d with
    | ok _ next =>
      rw [hpoint] at hstep
      rw [writeAll_cons_ok hpoint]
      exact hstep.trans (ih next)
    | error e next =>
      rw [hpoint] at hstep
      rw [writeAll_cons_error hpoint]
      exact hstep.trans (ih next)

/-- The accepted points are those that were answered without an error. -/
theorem length_accepted (d : Draft) (points : List Point) :
    (d.writeAll points).accepted.length = (d.writeAll points).answers.countP (·.isOk) := by
  induction points generalizing d with
  | nil => rfl
  | cons p ps ih =>
    cases hpoint : writePoint p d with
    | ok _ next =>
      rw [writeAll_cons_ok hpoint, List.length_cons, ih, List.countP_cons_of_pos (by rfl)]
    | error e next =>
      have hanswer : ¬(Except.error e : Except Error Unit).isOk = true := Bool.false_ne_true
      rw [writeAll_cons_error hpoint, ih, List.countP_cons_of_neg hanswer]

/-! ## Files -/

/-- A new draft has counted nothing and is of the format and the version that were asked for. -/
theorem gathers_create {memory : Bytes} {created : CreationDate} {settings : Settings}
    {vlrs : List Vlr} {d : Draft} (h : create memory created settings vlrs = .ok d) :
    ∃ format minor, FormatLayout.ofNumber? settings.pointFormat = some format ∧
      settings.minorToWrite = .ok minor ∧
      Gathers (origin memory created settings vlrs minor) d [] := by
  obtain ⟨format, minor, selection, hformat, hminor, -, hselection⟩ := create_eq_ok h
  refine ⟨format, minor, hformat, hminor, ?_⟩
  cases selection with
  | all =>
    obtain rfl := hselection
    exact .refl _
  | only dims =>
    have hstart := gathers_start (ExtraDim.relocate format.baseSize dims)
      (origin memory created settings vlrs minor)
    rw [hselection] at hstart
    exact hstart

/-- A finished file begins with a header that states the tally. -/
theorem close_eq_ok {d : Draft} {bytes : Bytes} (h : d.close = .ok bytes) :
    ∃ (header : Header) (rest : Bytes), bytes = (header.withTally d.tally).encode ++ rest ∧
      header.version = d.header.version ∧ header.formatByte = d.header.formatByte := by
  have hsettled : ∀ {s : Draft} {layout : RecordLayout}, s.layout = some layout →
      s.close = .ok bytes → ∃ rest, bytes = (s.header.withTally s.tally).encode ++ rest := by
    intro s layout hlayout hclose
    rw [close_of_layout hlayout, Sink.seek_zero, Sink.write_holding, Except.ok.injEq] at hclose
    exact ⟨_, hclose.symm⟩
  cases hlayout : d.layout with
  | some layout =>
    obtain ⟨rest, hbytes⟩ := hsettled hlayout h
    exact ⟨d.header, rest, hbytes, rfl, rfl⟩
  | none =>
    have hstart := gathers_start [] d
    rw [close_of_open hlayout] at h
    cases hresult : start [] d with
    | error e s =>
      rw [hresult] at h
      cases h
    | ok _ s =>
      rw [hresult] at h hstart
      obtain ⟨prepared, blocks, -, -, rfl⟩ := start_eq_ok.1 hresult
      obtain ⟨rest, hbytes⟩ := hsettled rfl h
      have htally : (prepared.started [] blocks).tally = d.tally := hstart.tally
      rw [htally] at hbytes
      exact ⟨_, rest, hbytes, hstart.version, hstart.formatByte⟩

/-- An opened file has the header that stands at its beginning. -/
theorem header_of_ofBytes {bytes : Bytes} {settings : Settings} {f : OpenFile}
    (h : OpenFile.ofBytes bytes settings = .ok f) : Header.decode bytes = .ok f.header := by
  simp only [OpenFile.ofBytes, bind_eq_ok, pure_eq_ok] at h
  obtain ⟨header, hheader, -, -, -, -, -, -, -, -, -, -, -, -, -, -, rfl⟩ := h
  exact hheader

/-- The number of points that a finished file states, for every run of every draft. -/
theorem pointCount_of_close {memory : Bytes} {created : CreationDate} {settings reading : Settings}
    {vlrs : List Vlr} {d : Draft} {points : List Point} {bytes : Bytes} {f : OpenFile}
    (hcreate : create memory created settings vlrs = .ok d)
    (hclose : (d.writeAll points).draft.close = .ok bytes)
    (hopen : OpenFile.ofBytes bytes reading = .ok f)
    (hwide : (d.writeAll points).accepted.length < UInt64.size)
    (hnarrow : d.header.version.minor < 4 → (d.writeAll points).accepted.length < UInt32.size) :
    f.pointCount =
      if d.header.version.minor < 4 ∧ ∃ p ∈ (d.writeAll points).accepted,
        6 ≤ Tally.returnOf p ∧ Tally.returnOf p ≤ 15 then 0
      else (d.writeAll points).answers.countP (·.isOk) := by
  obtain ⟨format, minor, hformat, hminor, hnew⟩ := gathers_create hcreate
  obtain ⟨-, -, -, hmost⟩ := Settings.minorToWrite_eq_ok hminor
  obtain ⟨header, rest, rfl, hversion, hbyte⟩ := close_eq_ok hclose
  have hrun := hnew.trans (gathers_writeAll d points)
  have htally : (d.writeAll points).draft.tally = .ofPoints (d.writeAll points).accepted :=
    hrun.tally
  have hform : header.version = ⟨1, minor⟩ := hversion.trans hrun.version
  have hnumber : header.formatByte = settings.pointFormat := hbyte.trans hrun.formatByte
  have hfirst : d.header.version.minor = minor := congrArg Version.minor hnew.version
  have hextended : header.version.isExtended = false ↔ minor < 4 := by
    simp [hform, Version.isExtended]
  have hdecode := Header.decode_encode_append (header.withTally (d.writeAll points).draft.tally)
    (by simp [hform]) (by simpa [hform] using hmost) rest
  have hread : f.header = (header.withTally (d.writeAll points).draft.tally).reread := by
    simpa using (header_of_ofBytes hopen).symm.trans hdecode
  have hold : header.version.isExtended = false →
      header.format < 6 ∧ (d.writeAll points).accepted.length < UInt32.size := by
    intro hshort
    have hlow := hextended.1 hshort
    rw [(Header.format_eq_formatByte (hnumber ▸ hformat)).1, hnumber]
    exact ⟨Settings.pointFormat_lt_six hminor hlow, hnarrow (hfirst ▸ hlow)⟩
  calc f.pointCount
      = (header.withTally (.ofPoints (d.writeAll points).accepted)).pointCount.toNat := by
        rw [OpenFile.pointCount, hread, Header.pointCount_reread, htally]
    _ = if header.version.isExtended = false ∧
          ∃ p ∈ (d.writeAll points).accepted, Tally.IsLate p then 0
        else (d.writeAll points).accepted.length :=
        Header.pointCount_withTally_ofPoints hwide hold
    _ = _ := by
        rw [← length_accepted, hfirst]
        simp only [hextended, Tally.IsLate]

/-- A sixth return, a point that is refused, and a first return. -/
def lateReturns : List Point :=
  [.set .empty .returnNumber (.unsigned 6), .set .empty .intensity (.unsigned 70000),
    .set .empty .returnNumber (.unsigned 1)]

/-- A file of the standard settings to which two points were written states none. -/
theorem pointCount_of_close_lateReturns :
    ∃ (d : Draft) (bytes : Bytes) (f : OpenFile),
      create [] ⟨0, 0⟩ .standard [] = .ok d ∧ (d.writeAll lateReturns).draft.close = .ok bytes ∧
      OpenFile.ofBytes bytes .standard = .ok f ∧
      (d.writeAll lateReturns).answers.countP (·.isOk) = 2 ∧ f.pointCount = 0 := by
  have hrun : (do
      let d ← create [] ⟨0, 0⟩ .standard []
      let bytes ← (d.writeAll lateReturns).draft.close
      let _ ← OpenFile.ofBytes bytes .standard
      return (d.header.version.minor, (d.writeAll lateReturns).accepted.map Tally.returnOf) :
        Except Error _).toOption = some (2, [6, 1]) := by decide +kernel
  have hsteps := eq_ok_of_toOption hrun
  simp only [bind_eq_ok, pure_eq_ok, Prod.mk.injEq] at hsteps
  obtain ⟨d, hcreate, bytes, hclose, f, hopen, hminor, hreturns⟩ := hsteps
  have haccepted : (d.writeAll lateReturns).accepted.length = 2 := by
    simpa using congrArg List.length hreturns
  have hlate : ∃ p ∈ (d.writeAll lateReturns).accepted,
      6 ≤ Tally.returnOf p ∧ Tally.returnOf p ≤ 15 := by
    obtain ⟨p, hp, hreturn⟩ := List.mem_map.1 (hreturns ▸ List.mem_cons_self (a := 6))
    exact ⟨p, hp, by omega, by omega⟩
  have hcount := pointCount_of_close hcreate hclose hopen (by rw [haccepted]; decide)
    fun _ ↦ by rw [haccepted]; decide
  rw [if_pos ⟨by rw [hminor]; decide, hlate⟩] at hcount
  exact ⟨d, bytes, f, hcreate, hclose, hopen, by rw [← length_accepted, haccepted], hcount⟩

end LasFile.Draft
