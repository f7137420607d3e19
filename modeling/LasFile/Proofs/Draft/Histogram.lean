import LasFile.Proofs.Draft.Records
import LasFile.Proofs.Record.ExtraField

/-!
# Points by return number

The header of a finished file counts the accepted points by their return numbers with the fraction
dropped, up to the fifteenth. The records hold these numbers rounded, and of the result the three or
four low bits that the field has room for. The two agree for whole numbers that fit the field, and
neither a fraction of one half nor a number past the field is refused.
-/

namespace LasFile

open Draft Outcome

/-! ## Return numbers in records -/

namespace FormatLayout

/-- How many return numbers the core has room for, zero among them. -/
def returnRoom (l : FormatLayout) : Nat := if l.extended then 16 else 8

/-- What a record holds of a point's return number. The last extra dimension of that name decides if
there is one; else it is the rounded number without what the core has no room for. -/
def storedReturn (l : FormatLayout) (dims : List ExtraDim) (p : Point) : Option Value :=
  match dims.reverse.find? fun dim ↦ dim.id = .returnNumber with
  | some dim => dim.decode <$> (dim.encode p).toOption
  | none =>
    some (.unsigned (.ofNat
      (((p.valueOrZero .returnNumber).nearestInt?.getD 0).toNat % l.returnRoom)))

theorem returnNumber_mem_integerFields :
    ∀ l ∈ all, ⟨.returnNumber, .one, 14, 1, l.returnRoom⟩ ∈ l.integerFields := by
  decide

theorem returnRoom_le (l : FormatLayout) : l.returnRoom ≤ 16 := by
  unfold returnRoom
  split <;> decide

end FormatLayout

/-- A record that was packed holds the stored return number. -/
theorem RecordLayout.returnNumber_of_pack {number : UInt8} {format : FormatLayout}
    (hformat : FormatLayout.ofNumber? number = some format) {scaling : Scaling}
    {dims : List ExtraDim} (hbehind : ∀ dim ∈ dims, format.coreSize ≤ dim.start)
    (hplaces : dims.Pairwise fun dim later ↦ dim.limit ≤ later.start) {p : Point}
    {buffer packed : Bytes} {configured : Bool}
    (hroom : (ofFormat number scaling dims).recordLength ≤ buffer.length)
    (hpack : (ofFormat number scaling dims).pack p buffer = .ok configured packed) (q : Point) :
    (q.setAll ((ofFormat number scaling dims).fields packed)).get? .returnNumber =
      format.storedReturn dims p := by
  unfold FormatLayout.storedReturn
  cases hfind : dims.reverse.find? fun dim ↦ dim.id = .returnNumber with
  | none =>
    have hother : ∀ dim ∈ dims, dim.id ≠ .returnNumber := by
      intro dim hdim
      simpa using List.find?_eq_none.1 hfind dim (List.mem_reverse.2 hdim)
    obtain ⟨n, ⟨hnearest, -⟩, hfield⟩ := integerField_of_pack hformat hbehind hroom hpack _
      (FormatLayout.returnNumber_mem_integerFields format (List.mem_of_getElem? hformat))
    rw [hfield hother]
    simp only [hnearest, Option.getD_some, Int.toNat_natCast]
  | some dim =>
    obtain ⟨hfound, after, before, hsplit, hothers⟩ := List.find?_eq_some_iff_append.1 hfind
    have hname : dim.id = .returnNumber := of_decide_eq_true hfound
    have hlast : ∀ later ∈ after.reverse, later.id ≠ dim.id := by
      intro later hlater
      simpa [hname] using hothers later (List.mem_reverse.1 hlater)
    obtain rfl : dims = before.reverse ++ dim :: after.reverse := by
      rw [← List.reverse_reverse dims, hsplit]
      simp
    obtain ⟨-, hrest, -⟩ := List.pairwise_append.1 hplaces
    have hapart : ∀ later ∈ after.reverse, dim.range.Apart later.range :=
      fun later hlater ↦ ByteRange.apart_of_le ((List.pairwise_cons.1 hrest).1 later hlater)
    obtain ⟨part, hpart, hread⟩ := extraDim_of_pack hformat hapart hlast hroom hpack
    rw [← hname, hread]
    simp only [hpart]
    rfl

/-- The return number of a record as the layout of a draft reads it. -/
def Draft.returnIn (d : Draft) (record : Bytes) : Option Value :=
  match (d.layout.getD .unconfigured).load record .empty with
  | .ok _ p => p.get? .returnNumber
  | .error _ _ => none

/-- The record of a point is read back with the stored return number. -/
theorem Draft.returnIn_of_encodePoint {d : Draft} {number : UInt8} {format : FormatLayout}
    {scaling : Scaling} {given : List ExtraDim}
    (hformat : FormatLayout.ofNumber? number = some format)
    (hlayout : d.layout = some (.ofFormat number scaling
      (ExtraDim.contiguous format.baseSize given)))
    (hlength : d.header.recordLength.toNat = format.recordLength given) {p : Point}
    {record : Bytes} (h : d.encodePoint p = .ok record) :
    d.returnIn record = format.storedReturn (ExtraDim.contiguous format.baseSize given) p := by
  obtain ⟨hbehind, hroom, hlength, configured, hpack⟩ :=
    exists_pack_of_encodePoint hformat hlayout hlength h
  rw [returnIn, hlayout, Option.getD_some, RecordLayout.load_of_room hlength]
  exact RecordLayout.returnNumber_of_pack hformat hbehind
    (ExtraDim.pairwise_contiguous format.baseSize given) hroom hpack _

/-! ## Return numbers that are kept -/

/-- A whole return number that the core has room for. A point without one has return number zero. -/
def Point.HasWholeReturn (room : Nat) (p : Point) : Prop :=
  ∃ n < room, (p.valueOrZero .returnNumber).IsWhole n

namespace FormatLayout

variable {l : FormatLayout} {dims : List ExtraDim} {p : Point} {n : Nat}

/-- A whole return number is stored as it is. -/
theorem storedReturn_isWhole (hwhole : (p.valueOrZero .returnNumber).IsWhole n)
    (hn : n < l.returnRoom) (hplain : ∀ dim ∈ dims, dim.transform = .identity)
    (hscalar : ∀ dim ∈ dims, dim.id = .returnNumber → ∃ scalar, dim.storage = .scalar scalar) :
    ∃ v, l.storedReturn dims p = some v ∧ v.IsWhole n := by
  have hsmall : n < 16 := Nat.lt_of_lt_of_le hn l.returnRoom_le
  unfold storedReturn
  cases hfind : dims.reverse.find? fun dim ↦ dim.id = .returnNumber with
  | none =>
    refine ⟨_, rfl, .inl ?_⟩
    rw [hwhole.nearestInt?_eq hsmall, Option.getD_some, Int.toNat_natCast, Nat.mod_eq_of_lt hn]
  | some dim =>
    have hdim : dim ∈ dims := List.mem_reverse.1 (List.mem_of_find?_eq_some hfind)
    have hname : dim.id = .returnNumber := by simpa using List.find?_some hfind
    obtain ⟨scalar, hstorage⟩ := hscalar dim hdim hname
    rw [← hname] at hwhole
    obtain ⟨part, hpart, hread⟩ :=
      ExtraDim.exists_encode_of_isWhole (hplain dim hdim) hstorage hwhole hsmall
    refine ⟨dim.decode part, ?_, hread⟩
    simp only [hpart]
    rfl

/-- Whole return numbers with room are counted as they are stored. -/
theorem returnOf_eq_iff (h : p.HasWholeReturn l.returnRoom)
    (hplain : ∀ dim ∈ dims, dim.transform = .identity)
    (hscalar : ∀ dim ∈ dims, dim.id = .returnNumber → ∃ scalar, dim.storage = .scalar scalar)
    {k : Nat} (hk : k < 16) :
    Tally.returnOf p = k ↔ (l.storedReturn dims p).any fun v ↦ v.IsWhole k := by
  obtain ⟨n, hn, hwhole⟩ := h
  have hsmall : n < 16 := Nat.lt_of_lt_of_le hn l.returnRoom_le
  obtain ⟨v, hv, hread⟩ := storedReturn_isWhole hwhole hn hplain hscalar
  rw [Tally.returnOf, Point.number_eq_toDouble, hwhole.toDouble_eq hsmall,
    Value.clamp_ofInt n hsmall, hv, Option.any_some, decide_eq_true_eq, hread.iff_eq hsmall hk]

end FormatLayout

/-! ## Counts in headers -/

/-- What the counts by return number of a finished file say of its records, for all settings and
records and every run, with the dimensions named or taken from the first point. The header counts
the return numbers of the accepted points without their fractions; the records hold what is stored
of them. Both counts are the same if all accepted points have whole return numbers that the core has
room for, unless an untyped extra dimension has that name. -/
theorem Draft.byReturn_of_finish {memory : Bytes} {created : CreationDate} {settings : Settings}
    {vlrs : List Vlr} {d closed : Draft} {points : List Point}
    (hcreate : create memory created settings vlrs = .ok d)
    (hfinish : finish (d.writeAll points).draft = .ok () closed)
    (hplace : closed.PlaceFits) :
    ∃ format dims, FormatLayout.ofNumber? settings.pointFormat = some format ∧
      closed.layout = some (.ofFormat settings.pointFormat settings.scaling dims) ∧
      (d.writeAll points).draft.close = .ok closed.sink.bytes ∧
      closed.pointRecords.length = (d.writeAll points).accepted.length ∧
      (∀ i : Fin 15, closed.header.byReturn.get i =
        .ofNat ((d.writeAll points).accepted.countP fun p ↦ Tally.returnOf p = i.val + 1)) ∧
      (∀ i : Fin 15,
        (closed.pointRecords.countP fun record ↦
          (closed.returnIn record).any fun v ↦ v.IsWhole (i.val + 1)) =
        (d.writeAll points).accepted.countP fun p ↦
          (format.storedReturn dims p).any fun v ↦ v.IsWhole (i.val + 1)) ∧
      ((∀ p ∈ (d.writeAll points).accepted, p.HasWholeReturn format.returnRoom) →
        (∀ dim ∈ dims, dim.id = .returnNumber → ∃ scalar, dim.storage = .scalar scalar) →
        ∀ i : Fin 15, closed.header.byReturn.get i =
          .ofNat (closed.pointRecords.countP fun record ↦
            (closed.returnIn record).any fun v ↦ v.IsWhole (i.val + 1))) := by
  obtain ⟨hrecords, hbyReturn, format, given, hformat, hlayout, hplain, hlength⟩ :=
    pointRecords_of_finish hcreate hfinish hplace
  have hcounted : ∀ i : Fin 15, closed.header.byReturn.get i =
      .ofNat ((d.writeAll points).accepted.countP fun p ↦ Tally.returnOf p = i.val + 1) := by
    intro i
    rw [hbyReturn, ← Tally.byReturn_ofPoints]
    simp only [Tally.get_eq_getElem, Vector.getElem_map]
  have hstored : ∀ i : Fin 15,
      (closed.pointRecords.countP fun record ↦
        (closed.returnIn record).any fun v ↦ v.IsWhole (i.val + 1)) =
      (d.writeAll points).accepted.countP fun p ↦
        (format.storedReturn (ExtraDim.contiguous format.baseSize given) p).any
          fun v ↦ v.IsWhole (i.val + 1) := by
    intro i
    refine (countP_of_mapM_eq_ok hrecords fun p _ record hrecord ↦ ?_).symm
    rw [returnIn_of_encodePoint hformat hlayout hlength hrecord]
  refine ⟨format, _, hformat, hlayout, by rw [close, hfinish], length_of_mapM_eq_ok hrecords,
    hcounted, hstored, fun hwhole hscalar i ↦ ?_⟩
  rw [hcounted, hstored]
  congr 1
  apply List.countP_congr
  intro p hp
  rw [decide_eq_true_eq]
  refine FormatLayout.returnOf_eq_iff (hwhole p hp) ?_ hscalar (Nat.succ_lt_succ i.isLt)
  exact (ExtraDim.forall_mem_contiguous ExtraDim.transform (fun _ _ ↦ rfl)
    (P := fun transform ↦ transform = .identity)).2 hplain

/-- A return number of two and a half, one that the core has no room for, a refused one, and a third
return: the header counts one third return, and two records hold one. -/
theorem Draft.byReturn_of_finish_halves :
    let settings : Settings := { Settings.standard with pointFormat := 6 }
    let points : List Point := [.set .empty .returnNumber (.float (.ofRatio false 5 2)),
      .set .empty .returnNumber (.unsigned 18), .set .empty .returnNumber (.signed (-1)),
      .set .empty .returnNumber (.signed 3)]
    ∃ d closed : Draft, create [] ⟨0, 0⟩ settings [] = .ok d ∧
      finish (d.writeAll points).draft = .ok () closed ∧ closed.frontLength = 375 ∧
      closed.pointRecords.length = 3 ∧ closed.header.byReturn.get 2 = 1 ∧
      (closed.pointRecords.countP fun record ↦
        (closed.returnIn record).any fun v ↦ v.IsWhole 3) = 2 := by
  intro settings points
  have hrun : (do
      let d ← create [] ⟨0, 0⟩ settings []
      let closed := (d.writeAll points).draft.finished
      return ((d.writeAll points).draft.layout.isSome, closed.frontLength,
        (d.writeAll points).accepted.length,
        (d.writeAll points).accepted.countP fun p ↦ Tally.returnOf p = 3,
        closed.pointRecords.countP fun record ↦
          (closed.returnIn record).any fun v ↦ v.IsWhole 3) : Except Error _).toOption =
      some (true, 375, 3, 1, 2) := by decide +kernel
  have hsteps := eq_ok_of_toOption hrun
  simp only [bind_eq_ok, pure_eq_ok, Prod.mk.injEq] at hsteps
  obtain ⟨d, hcreate, hsettled, hplace, hlength, hreturns, hstored⟩ := hsteps
  obtain ⟨layout, hlayout⟩ := Option.isSome_iff_exists.1 hsettled
  have hfinish := finish_of_layout hlayout
  obtain ⟨format, dims, -, -, -, hrecords, hcounted, -⟩ :=
    byReturn_of_finish hcreate hfinish (by rw [PlaceFits, hplace]; decide)
  refine ⟨d, _, hcreate, hfinish, hplace, hrecords.trans hlength, ?_, hstored⟩
  rw [hcounted 2, show ((2 : Fin 15).val + 1) = 3 from rfl, hreturns]
  rfl

end LasFile
