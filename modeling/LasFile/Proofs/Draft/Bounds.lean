import LasFile.Proofs.Draft.Records
import LasFile.Proofs.OpenFile.Points
import LasFile.Proofs.Record.Coordinate

/-!
# Bounds and coordinates

The header of a finished file bounds the coordinates of the accepted points as they were given. The
records hold these coordinates on the grid, and what is read from there lies between the bounds as
they come back from the grid, which need not lie within the bounds themselves.
-/

namespace LasFile

open Outcome

/-! ## The first of some numbers -/

namespace Double

/-- The number that an order puts first. A NaN loses, and of equal numbers the second is taken. -/
def first (le : Double → Double → Bool) (a b : Double) : Double :=
  if a.isNaN || le b a then b else a

/-- An order in which all numbers but the NaNs can be compared. -/
structure Compares (le : Double → Double → Bool) : Prop where
  total : ∀ {a b : Double}, a.isNaN = false → b.isNaN = false → le b a = false → le a b = true
  trans : ∀ {a b c : Double}, le a b = true → le b c = true → le a c = true

theorem compares_ieeeLe : Compares ieeeLe where
  total := by
    intro a b ha hb h
    simp only [ieeeLe, ha, hb, Bool.not_false, Bool.true_and, decide_eq_false_iff_not,
      decide_eq_true_eq] at h ⊢
    omega
  trans := by
    intro a b c h h'
    simp only [ieeeLe, Bool.and_eq_true, Bool.not_eq_true', decide_eq_true_eq] at h h' ⊢
    exact ⟨⟨h.1.1, h'.1.2⟩, h.2.trans h'.2⟩

theorem Compares.flip {le : Double → Double → Bool} (h : Compares le) :
    Compares fun a b ↦ le b a where
  total ha hb := h.total hb ha
  trans h' h'' := h.trans h'' h'

theorem min_eq_first : Double.min = first ieeeLe := rfl

theorem max_eq_first : Double.max = first fun a b ↦ b.ieeeLe a := rfl

namespace Compares

variable {le : Double → Double → Bool} (hle : Compares le)

include hle

theorem refl {a : Double} (ha : a.isNaN = false) : le a a = true := by
  by_contra h
  exact h (hle.total ha ha (by simpa using h))

/-- The first of some numbers is one of them, and none of them stands in front of it. -/
theorem foldl_first {values : List Double} (hvalues : ∀ v ∈ values, v.isNaN = false)
    {start : Double} (hstart : start.isNaN = false) :
    values.foldl (first le) start ∈ start :: values ∧
      ∀ v ∈ start :: values, le (values.foldl (first le) start) v = true := by
  -- For every start, as each step goes on from the first of the start and the next number.
  induction values generalizing start with
  | nil => exact ⟨List.mem_singleton_self _, by simpa using hle.refl hstart⟩
  | cons v rest ih =>
    obtain ⟨hv, hrest⟩ := List.forall_mem_cons.1 hvalues
    rw [List.foldl_cons]
    cases hless : le v start with
    | true =>
      have hnext : first le start v = v := by simp [first, hless]
      obtain ⟨hmem, hall⟩ := ih hrest hv
      obtain ⟨hhead, htail⟩ := List.forall_mem_cons.1 hall
      rw [hnext]
      exact ⟨List.mem_cons_of_mem _ hmem, List.forall_mem_cons.2
        ⟨hle.trans hhead hless, List.forall_mem_cons.2 ⟨hhead, htail⟩⟩⟩
    | false =>
      have hnext : first le start v = start := by simp [first, hstart, hless]
      obtain ⟨hmem, hall⟩ := ih hrest hstart
      obtain ⟨hhead, htail⟩ := List.forall_mem_cons.1 hall
      rw [hnext]
      refine ⟨?_, List.forall_mem_cons.2 ⟨hhead, List.forall_mem_cons.2
        ⟨hle.trans hhead (hle.total hstart hv hless), htail⟩⟩⟩
      rcases List.mem_cons.1 hmem with hsame | hlater
      · rw [hsame]
        exact List.mem_cons_self
      · exact List.mem_cons_of_mem _ (List.mem_cons_of_mem _ hlater)

/-- A start that no number stands behind is never the first. -/
theorem foldl_first_of_last {values : List Double} (hvalues : ∀ v ∈ values, v.isNaN = false)
    (hsome : values ≠ []) {last : Double}
    (hlast : ∀ v : Double, v.isNaN = false → le v last = true) :
    values.foldl (first le) last ∈ values ∧
      ∀ v ∈ values, le (values.foldl (first le) last) v = true := by
  cases values with
  | nil => exact absurd rfl hsome
  | cons v rest =>
    obtain ⟨hv, hrest⟩ := List.forall_mem_cons.1 hvalues
    have hnext : first le last v = v := by simp [first, hlast v hv]
    rw [List.foldl_cons, hnext]
    exact hle.foldl_first hrest hv

end Compares

theorem ieeeLe_infinity {d : Double} (h : d.isNaN = false) :
    d.ieeeLe (infinity false) = true ∧ (infinity true).ieeeLe d = true := by
  have hbounds := abs_le.1 (abs_rank_le h)
  have hrank : ∀ negative, (infinity negative).isNaN = false ∧
      (infinity negative).rank = signed negative Precision.binary64.infinity :=
    fun negative ↦ ⟨isNaN_ofMagnitude le_rfl _, rank_ofMagnitude infinity_lt_signBit _⟩
  obtain ⟨htop, htopRank⟩ := hrank false
  obtain ⟨hbottom, hbottomRank⟩ := hrank true
  simp only [signed, if_true, Bool.false_eq_true, if_false] at htopRank hbottomRank
  simp [ieeeLe, h, htop, hbottom, htopRank, hbottomRank, hbounds]

end Double

/-! ## Bounds of points -/

namespace Tally

theorem at_min_foldl_add (t : Tally) (points : List Point) (axis : Axis) :
    (points.foldl add t).min.at axis =
      (points.map (·.number axis.dimension)).foldl Double.min (t.min.at axis) := by
  rw [List.foldl_map]
  exact (List.foldl_hom (fun t : Tally ↦ t.min.at axis) fun t p ↦ by cases axis <;> rfl).symm

theorem at_max_foldl_add (t : Tally) (points : List Point) (axis : Axis) :
    (points.foldl add t).max.at axis =
      (points.map (·.number axis.dimension)).foldl Double.max (t.max.at axis) := by
  rw [List.foldl_map]
  exact (List.foldl_hom (fun t : Tally ↦ t.max.at axis) fun t p ↦ by cases axis <;> rfl).symm

end Tally

/-- The coordinates of some points on one axis: all are stored on its grid, and two of them bound
the others. -/
structure Bounds (axis : Axis) (grid : Transform) (points : List Point) (low high : Double) :
    Prop where
  stored : ∀ p ∈ points, ∃ n, Core.coordinate p axis.dimension grid = .ok n
  lowest : ∃ p ∈ points, p.number axis.dimension = low
  highest : ∃ p ∈ points, p.number axis.dimension = high
  between : ∀ p ∈ points, low.ieeeLe (p.number axis.dimension) = true ∧
    (p.number axis.dimension).ieeeLe high = true

variable {axis : Axis} {grid : Transform} {points : List Point} {low high : Double}

/-- A tally bounds points that are stored. -/
theorem bounds_ofPoints
    (hstored : ∀ p ∈ points, ∃ n, Core.coordinate p axis.dimension grid = .ok n)
    (hsome : points ≠ []) : Bounds axis grid points ((Tally.ofPoints points).min.at axis)
      ((Tally.ofPoints points).max.at axis) := by
  have hnumbers : ∀ v ∈ points.map (·.number axis.dimension), v.isNaN = false := by
    refine List.forall_mem_map.2 fun p hp ↦ ?_
    obtain ⟨n, hn⟩ := hstored p hp
    exact Transform.isNaN_of_nearestInt? (Core.coordinate_eq_ok hn).1
  have hnumbersSome : points.map (·.number axis.dimension) ≠ [] := by simpa using hsome
  obtain ⟨hmin, hbelow⟩ := Double.compares_ieeeLe.foldl_first_of_last hnumbers hnumbersSome
    fun v hv ↦ (Double.ieeeLe_infinity hv).1
  obtain ⟨hmax, habove⟩ := Double.compares_ieeeLe.flip.foldl_first_of_last hnumbers hnumbersSome
    fun v hv ↦ (Double.ieeeLe_infinity hv).2
  have hleast : Tally.empty.min.at axis = .infinity false := by cases axis <;> rfl
  have hmost : Tally.empty.max.at axis = .infinity true := by cases axis <;> rfl
  rw [Tally.ofPoints, Tally.at_min_foldl_add, Tally.at_max_foldl_add, hleast, hmost,
    Double.min_eq_first, Double.max_eq_first]
  exact ⟨hstored, List.mem_map.1 hmin, List.mem_map.1 hmax,
    fun p hp ↦ ⟨hbelow _ (List.mem_map_of_mem hp), habove _ (List.mem_map_of_mem hp)⟩⟩

/-- On a grid of finite scale the bounds come back around the others. -/
theorem Bounds.exists_regrid (h : Bounds axis grid points low high)
    (hscale : grid.scale.isFinite = true) :
    ∃ least most, grid.regrid low = some least ∧ grid.regrid high = some most ∧
      ∀ p ∈ points, ∀ c, grid.regrid (p.number axis.dimension) = some c →
        least.ieeeLe c = true ∧ c.ieeeLe most = true := by
  obtain ⟨lowest, hlowest, rfl⟩ := h.lowest
  obtain ⟨highest, hhighest, rfl⟩ := h.highest
  obtain ⟨n, hn⟩ := h.stored lowest hlowest
  obtain ⟨m, hm⟩ := h.stored highest hhighest
  refine ⟨_, _, (Core.coordinate_eq_ok hn).2.1, (Core.coordinate_eq_ok hm).2.1, fun p hp c hc ↦ ?_⟩
  obtain ⟨k, hk⟩ := h.stored p hp
  obtain ⟨hbelow, habove⟩ := h.between p hp
  obtain rfl := Option.some.inj ((Core.coordinate_eq_ok hk).2.1.symm.trans hc)
  exact ⟨Core.fromStored_ieeeLe hscale hn hk hbelow, Core.fromStored_ieeeLe hscale hk hm habove⟩

/-! ## Coordinates that are read -/

namespace OpenFile

/-- The points read from a file have the coordinates of some points as these come back from the
grid. -/
def Rereads (f : OpenFile) (axis : Axis) (grid : Transform) (points : List Point) : Prop :=
  ∀ i < f.pointCount, ∃ p c, points[i]? = some p ∧
    grid.regrid (p.number axis.dimension) = some c ∧
    ∀ q, ∃ r, f.readPoint i q = .ok true r ∧ r.get? axis.dimension = some (.float c)

/-- The coordinates of all points that are read lie between two numbers. -/
def LiesWithin (f : OpenFile) (axis : Axis) (low high : Double) : Prop :=
  ∀ i < f.pointCount, ∀ q r, f.readPoint i q = .ok true r →
    ∃ c, r.get? axis.dimension = some (.float c) ∧ low.ieeeLe c = true ∧ c.ieeeLe high = true

variable {f : OpenFile}

theorem Rereads.liesWithin (h : f.Rereads axis grid points)
    (hwithin : ∀ p ∈ points, ∀ c, grid.regrid (p.number axis.dimension) = some c →
      low.ieeeLe c = true ∧ c.ieeeLe high = true) : f.LiesWithin axis low high := by
  intro i hi q r hr
  obtain ⟨p, c, hp, hc, hpoint⟩ := h i hi
  obtain ⟨r', hr', hvalue⟩ := hpoint q
  obtain ⟨-, rfl⟩ := EStateM.Result.ok.inj (hr.symm.trans hr')
  exact ⟨c, hvalue, hwithin p (List.mem_of_getElem? hp) c hc⟩

theorem Rereads.of_liesWithin (h : f.Rereads axis grid points)
    (hcount : f.pointCount = points.length) (hwithin : f.LiesWithin axis low high) {p : Point}
    (hp : p ∈ points) {c : Double} (hc : grid.regrid (p.number axis.dimension) = some c) :
    low.ieeeLe c = true ∧ c.ieeeLe high = true := by
  obtain ⟨i, hplaced⟩ := List.mem_iff_getElem?.1 hp
  have hi : i < f.pointCount := hcount ▸ (List.getElem?_eq_some_iff.1 hplaced).1
  obtain ⟨p', c', hp', hc', hpoint⟩ := h i hi
  obtain rfl : p = p' := Option.some.inj (hplaced.symm.trans hp')
  obtain rfl : c = c' := Option.some.inj (hc.symm.trans hc')
  obtain ⟨r, hr, hvalue⟩ := hpoint .empty
  obtain ⟨c', hvalue', hinside⟩ := hwithin i hi _ _ hr
  obtain rfl := Value.float.inj (Option.some.inj (hvalue.symm.trans hvalue'))
  exact hinside

/-- Where every point of some is read, their bounds contain all coordinates that are read exactly if
they contain themselves as they come back. -/
theorem Rereads.liesWithin_iff (h : f.Rereads axis grid points)
    (hcount : f.pointCount = points.length) (hbounds : Bounds axis grid points low high)
    {least most : Double} (hleast : grid.regrid low = some least)
    (hmost : grid.regrid high = some most)
    (hwithin : ∀ p ∈ points, ∀ c, grid.regrid (p.number axis.dimension) = some c →
      least.ieeeLe c = true ∧ c.ieeeLe most = true) :
    f.LiesWithin axis low high ↔ low.ieeeLe least = true ∧ most.ieeeLe high = true := by
  constructor
  · intro hinside
    obtain ⟨lowest, hlowest, rfl⟩ := hbounds.lowest
    obtain ⟨highest, hhighest, rfl⟩ := hbounds.highest
    exact ⟨(h.of_liesWithin hcount hinside hlowest hleast).1,
      (h.of_liesWithin hcount hinside hhighest hmost).2⟩
  · rintro ⟨hbelow, habove⟩
    apply h.liesWithin
    intro p hp c hc
    obtain ⟨hlow, hhigh⟩ := hwithin p hp c hc
    exact ⟨Double.compares_ieeeLe.trans hbelow hlow, Double.compares_ieeeLe.trans hhigh habove⟩

end OpenFile

/-! ## Finished files -/

theorem Header.bounds_withTally (h : Header) {t : Tally} (hsome : t.count ≠ 0) :
    (h.withTally t).min = t.min ∧ (h.withTally t).max = t.max := by
  simp only [withTally, if_neg hsome, and_self]

namespace Draft

variable {memory : Bytes} {created : CreationDate} {settings reading : Settings} {vlrs : List Vlr}
  {d closed : Draft} {points : List Point} {f : OpenFile}

/-- The header of a finished file as it is read. -/
theorem header_of_finish (hcreate : create memory created settings vlrs = .ok d)
    (hfinish : finish (d.writeAll points).draft = .ok () closed)
    (hopen : OpenFile.ofBytes closed.sink.bytes reading = .ok f) :
    f.header = closed.header.reread ∧ f.header.scaling = settings.scaling ∧
      f.header.format = settings.pointFormat ∧
      f.pointCount ≤ (d.writeAll points).accepted.length ∧
      ((d.writeAll points).accepted ≠ [] →
        f.header.min = (Tally.ofPoints (d.writeAll points).accepted).min ∧
        f.header.max = (Tally.ofPoints (d.writeAll points).accepted).max) := by
  obtain ⟨s, format, minor, rfl, -, hformat, hminor, hrun⟩ :=
    exists_gathered_of_finish hcreate hfinish
  obtain ⟨-, -, -, hmost⟩ := Settings.minorToWrite_eq_ok hminor
  have htally : s.tally = .ofPoints (d.writeAll points).accepted := hrun.tally
  have hversion : s.header.version = ⟨1, minor⟩ := hrun.version
  have hbyte : s.header.formatByte = settings.pointFormat := hrun.formatByte
  have hread : f.header = s.finished.header.reread :=
    Except.ok.inj ((header_of_ofBytes hopen).symm.trans
      (decode_finished (by rw [hversion]) (by rwa [hversion])))
  have hscaling : s.finished.header.scaling = s.header.scaling :=
    Header.apply_withTally Header.scaling (fun _ _ _ _ _ _ _ ↦ rfl) _ _
  have hnumber : f.header.formatByte = settings.pointFormat := by
    rw [hread, Header.formatByte_reread, ← hbyte]
    exact Header.apply_withTally Header.formatByte (fun _ _ _ _ _ _ _ ↦ rfl) _ _
  refine ⟨hread, ?_, ?_, ?_, fun hsome ↦ ?_⟩
  · rw [hread, Header.scaling_reread, hscaling]
    exact hrun.scaling
  · rw [← hnumber] at hformat ⊢
    exact (Header.format_eq_formatByte hformat).1
  · have hcount := s.header.pointCount_withTally_le s.tally
    rw [OpenFile.pointCount, hread, Header.pointCount_reread]
    rwa [htally, Tally.count_ofPoints, ← htally] at hcount
  · have hne : s.tally.count ≠ 0 := by
      rw [htally, Tally.count_ofPoints]
      simpa using hsome
    rw [hread, ← htally]
    exact s.header.bounds_withTally hne

/-- Every point of an opened file is read from the record that was packed for an accepted point. -/
theorem readPoint_of_finish (hcreate : create memory created settings vlrs = .ok d)
    (hfinish : finish (d.writeAll points).draft = .ok () closed)
    (hplace : closed.PlaceFits)
    (hopen : OpenFile.ofBytes closed.sink.bytes reading = .ok f)
    (hsize : closed.sink.bytes.length < UInt64.size) {i : Nat} (hi : i < f.pointCount) :
    ∃ p record, (d.writeAll points).accepted[i]? = some p ∧ closed.encodePoint p = .ok record ∧
      ∀ q, f.readPoint i q = .ok true (q.setAll
        ((RecordLayout.ofFormat settings.pointFormat settings.scaling f.extraDims).fields
          record)) := by
  obtain ⟨hread, hscaling, hformat, hcount, -⟩ := header_of_finish hcreate hfinish hopen
  obtain ⟨hrecords, -, -⟩ := pointRecords_of_finish hcreate hfinish hplace
  obtain ⟨opening⟩ := OpenFile.exists_opening hopen
  have hbytes := opening.bytes_eq
  obtain ⟨p, hp⟩ : ∃ p, (d.writeAll points).accepted[i]? = some p :=
    ⟨_, List.getElem?_eq_getElem (Nat.lt_of_lt_of_le hi hcount)⟩
  obtain ⟨record, hencode, hrecord⟩ := getElem?_of_mapM_eq_ok hrecords hp
  have hlength : record.length = f.header.recordLength.toNat := by
    rw [hread, Header.recordLength_reread]
    exact RecordLayout.length_encode _ _ _ _ hencode
  -- The file that was opened and the finished draft place the records alike.
  have hslice : f.recordBytes i = record := by
    have hindex : i < closed.tally.count := by
      have hless := (List.getElem?_eq_some_iff.1 hrecord).1
      rwa [pointRecords, Bytes.parts_eq_map_range, List.length_map, List.length_range] at hless
    rw [pointRecords, Bytes.parts_eq_map_range, List.getElem?_map, List.getElem?_range hindex,
      Option.map_some, Option.some.injEq, Bytes.slice, List.drop_drop] at hrecord
    rw [OpenFile.recordBytes, OpenFile.recordPlace, hbytes, hread, Header.recordLength_reread,
      Header.offsetToPoints_reread]
    exact hrecord
  have hholds : f.HoldsRecord i := by
    have hpart : f.bytes.HoldsAt (f.recordPlace i) record := by
      rw [Bytes.HoldsAt, hlength]
      exact hslice
    have hend := hpart.le (by rw [hlength]; exact opening.recordLength_pos)
    rwa [hlength, ← OpenFile.recordPlace_succ] at hend
  refine ⟨p, record, hp, hencode, fun q ↦ ?_⟩
  rw [opening.readPoint_of_holdsRecord (by rwa [hbytes]) hi hholds, OpenFile.recordFields, hslice,
    opening.layout_eq, hformat, hscaling]

/-- The record of an accepted point holds its coordinates on the grid. -/
theorem coordinate_of_encodePoint (hcreate : create memory created settings vlrs = .ok d)
    (hfinish : finish (d.writeAll points).draft = .ok () closed)
    (hplace : closed.PlaceFits) {p : Point} {record : Bytes}
    (h : closed.encodePoint p = .ok record) (axis : Axis) :
    ∃ n, Core.coordinate p axis.dimension (settings.scaling.at axis) = .ok n ∧
      ∀ dims : List ExtraDim, (∀ dim ∈ dims, dim.id ≠ axis.dimension) → ∀ q : Point,
        (q.setAll ((RecordLayout.ofFormat settings.pointFormat settings.scaling dims).fields
          record)).get? axis.dimension =
            some (.float ((settings.scaling.at axis).fromStored (.ofInt n))) := by
  obtain ⟨-, -, format, given, hformat, hlayout, -, hlength⟩ :=
    pointRecords_of_finish hcreate hfinish hplace
  obtain ⟨hbehind, hroom, -, configured, hpack⟩ :=
    exists_pack_of_encodePoint hformat hlayout hlength h
  exact RecordLayout.coordinate_of_pack hformat hbehind hroom hpack axis

/-- The bounds of a finished file are those of the accepted points. -/
theorem bounds_of_accepted (hcreate : create memory created settings vlrs = .ok d)
    (hfinish : finish (d.writeAll points).draft = .ok () closed)
    (hplace : closed.PlaceFits)
    (hopen : OpenFile.ofBytes closed.sink.bytes reading = .ok f)
    (hsome : (d.writeAll points).accepted ≠ []) (axis : Axis) :
    Bounds axis (settings.scaling.at axis) (d.writeAll points).accepted (f.header.min.at axis)
      (f.header.max.at axis) := by
  obtain ⟨-, -, -, -, htallied⟩ := header_of_finish hcreate hfinish hopen
  obtain ⟨hmin, hmax⟩ := htallied hsome
  obtain ⟨hrecords, -, -⟩ := pointRecords_of_finish hcreate hfinish hplace
  rw [hmin, hmax]
  refine bounds_ofPoints (fun p hp ↦ ?_) hsome
  obtain ⟨record, hrecord⟩ := exists_eq_ok_of_mapM_eq_ok hrecords p hp
  obtain ⟨n, hn, -⟩ := coordinate_of_encodePoint hcreate hfinish hplace hrecord axis
  exact ⟨n, hn⟩

/-- The coordinates of an opened file are those of the accepted points. -/
theorem rereads_of_accepted (hcreate : create memory created settings vlrs = .ok d)
    (hfinish : finish (d.writeAll points).draft = .ok () closed)
    (hplace : closed.PlaceFits)
    (hopen : OpenFile.ofBytes closed.sink.bytes reading = .ok f)
    (hsize : closed.sink.bytes.length < UInt64.size) {axis : Axis}
    (hother : ∀ dim ∈ f.extraDims, dim.id ≠ axis.dimension) :
    f.Rereads axis (settings.scaling.at axis) (d.writeAll points).accepted := by
  intro i hi
  obtain ⟨p, record, hp, hrecord, hpoint⟩ :=
    readPoint_of_finish hcreate hfinish hplace hopen hsize hi
  obtain ⟨n, hn, hfield⟩ := coordinate_of_encodePoint hcreate hfinish hplace hrecord axis
  exact ⟨p, _, hp, (Core.coordinate_eq_ok hn).2.1, fun q ↦ ⟨_, hpoint q, hfield _ hother q⟩⟩

/-- What is read from a finished file lies between its bounds as they come back from the grid, for
all settings and records and every run. The bounds of the header contain the coordinates that were
given. Each coordinate read is that of an accepted point after it was stored on the grid, unless an
extra dimension of the file has its name. The bounds contain the coordinates that are read exactly
if they contain themselves as they come back. The length of the file has to fit sixty-four bits. -/
theorem bounds_of_finish (hcreate : create memory created settings vlrs = .ok d)
    (hfinish : finish (d.writeAll points).draft = .ok () closed)
    (hplace : closed.PlaceFits)
    (hopen : OpenFile.ofBytes closed.sink.bytes reading = .ok f)
    (hsize : closed.sink.bytes.length < UInt64.size)
    (hsome : (d.writeAll points).accepted ≠ []) (axis : Axis) :
    let grid := settings.scaling.at axis
    let low := f.header.min.at axis
    let high := f.header.max.at axis
    (d.writeAll points).draft.close = .ok closed.sink.bytes ∧
    (∀ p ∈ (d.writeAll points).accepted, low.ieeeLe (p.number axis.dimension) = true ∧
      (p.number axis.dimension).ieeeLe high = true) ∧
    ((∀ dim ∈ f.extraDims, dim.id ≠ axis.dimension) →
      f.Rereads axis grid (d.writeAll points).accepted ∧
      (grid.scale.isFinite = true → ∃ least most, grid.regrid low = some least ∧
        grid.regrid high = some most ∧ f.LiesWithin axis least most ∧
        (f.pointCount = (d.writeAll points).accepted.length →
          (f.LiesWithin axis low high ↔
            low.ieeeLe least = true ∧ most.ieeeLe high = true)))) := by
  intro grid low high
  have hbounds := bounds_of_accepted hcreate hfinish hplace hopen hsome axis
  refine ⟨by rw [close, hfinish], hbounds.between, fun hother ↦ ?_⟩
  have hrereads := rereads_of_accepted hcreate hfinish hplace hopen hsize hother
  refine ⟨hrereads, fun hscale ↦ ?_⟩
  obtain ⟨least, most, hleast, hmost, hwithin⟩ := hbounds.exists_regrid hscale
  exact ⟨least, most, hleast, hmost, hrereads.liesWithin hwithin,
    fun hcount ↦ hrereads.liesWithin_iff hcount hbounds hleast hmost hwithin⟩

/-- A coordinate of four thousandths, a refused one, and one between two hundredths: what is read
lies within the bounds as they come back and not within the bounds themselves. -/
theorem bounds_of_finish_offGrid :
    let points : List Point := [.set .empty .x (.float (.ofRatio false 4 1000)),
      .set .empty .x (.float (.ofInt 21474837)), .set .empty .x (.float (.ofRatio false 1026 1000))]
    ∃ (d closed : Draft) (f : OpenFile), create [] ⟨0, 0⟩ .standard [] = .ok d ∧
      finish (d.writeAll points).draft = .ok () closed ∧
      OpenFile.ofBytes closed.sink.bytes .standard = .ok f ∧ f.pointCount = 2 ∧
      f.header.min.x = .ofRatio false 4 1000 ∧ f.header.max.x = .ofRatio false 1026 1000 ∧
      f.LiesWithin .x .zero (.ofRatio false 103 100) ∧
      ¬f.LiesWithin .x f.header.min.x f.header.max.x := by
  intro points
  have hrun : (do
      let d ← create [] ⟨0, 0⟩ .standard []
      let closed := (d.writeAll points).draft.finished
      let f ← OpenFile.ofBytes closed.sink.bytes .standard
      return ((d.writeAll points).draft.layout.isSome, [closed.frontLength,
        closed.sink.bytes.length, (d.writeAll points).accepted.length, f.pointCount],
        f.extraDims, [f.header.min.x, f.header.max.x]) : Except Error _).toOption =
      some (true, [227, 295, 2, 2], [], [.ofRatio false 4 1000, .ofRatio false 1026 1000]) := by
    decide +kernel
  have hsteps := eq_ok_of_toOption hrun
  simp only [bind_eq_ok, pure_eq_ok, Prod.mk.injEq, List.cons.injEq] at hsteps
  obtain ⟨d, hcreate, f, hopen, hsettled, ⟨hfront, hlength, haccepted, hcount, -⟩, hdims, hmin,
    hmax, -⟩ := hsteps
  obtain ⟨layout, hlayout⟩ := Option.isSome_iff_exists.1 hsettled
  have hfinish := finish_of_layout hlayout
  have hsome : (d.writeAll points).accepted ≠ [] := by
    rw [← List.length_pos_iff, haccepted]
    decide
  obtain ⟨-, -, hread⟩ := bounds_of_finish hcreate hfinish (by rw [PlaceFits, hfront]; decide) hopen
    (by rw [hlength]; decide) hsome .x
  obtain ⟨-, hordered⟩ := hread (by simp [hdims])
  obtain ⟨least, most, hleast, hmost, hwithin, hexact⟩ := hordered (by decide +kernel)
  have hlow : Settings.standard.scaling.x.regrid (.ofRatio false 4 1000) = some .zero := by
    decide +kernel
  have hhigh : Settings.standard.scaling.x.regrid (.ofRatio false 1026 1000) =
      some (.ofRatio false 103 100) := by decide +kernel
  simp only [Axes.at, hmin, hmax, hlow, hhigh, Option.some.injEq] at hleast hmost
  subst hleast hmost
  refine ⟨d, _, f, hcreate, hfinish, hopen, hcount, hmin, hmax, hwithin, fun hinside ↦ ?_⟩
  obtain ⟨hbelow, -⟩ := (hexact (hcount.trans haccepted.symm)).1 hinside
  simp only [Axes.at, hmin] at hbelow
  revert hbelow
  decide +kernel

end Draft

end LasFile
