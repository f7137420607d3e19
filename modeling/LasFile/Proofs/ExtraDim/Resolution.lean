import LasFile.Proofs.ExtraDim.Sampled
import LasFile.Proofs.Text.Order
import Mathlib.Data.List.Sort

/-!
# The layout of all dimensions

A selection of all dimensions has one layout for each point. `Selection.SampledLayout` says which:
one dimension for each field that the format has no place for, in the order of the bytes of their
names, typed by the kinds of the values and placed without gaps. It says nothing of the order in
which the point happens to list its fields, and there is one such layout only.
-/

namespace LasFile

/-- The storage for values of a kind: numbers take eight bytes and keep their type, and a run of
bytes is kept as it is, unless it is empty or longer than any storage. -/
inductive Value.HasStorage : Value → Storage → Prop
  | signed (n : Int64) : HasStorage (.signed n) (.scalar (.signed .eight))
  | unsigned (n : UInt64) : HasStorage (.unsigned n) (.scalar (.unsigned .eight))
  | float (x : Double) : HasStorage (.float x) (.scalar .double)
  | bytes {bs : Bytes} {size : UInt8} (hsome : 0 < bs.length) (hlength : bs.length = size.toNat) :
    HasStorage (.bytes bs) (.raw size)

namespace Value.HasStorage

variable {v : Value} {storage other : Storage}

/-- A value has one storage at most. -/
theorem unique (h : v.HasStorage storage) (hother : v.HasStorage other) : storage = other := by
  cases h with
  | signed n =>
    cases hother
    rfl
  | unsigned n =>
    cases hother
    rfl
  | float x =>
    cases hother
    rfl
  | bytes hsome hlength =>
    cases hother with
    | bytes _ hsame => rw [UInt8.toNat_inj.1 (hlength.symm.trans hsame)]

/-- Runs of bytes that have storage are neither empty nor too long. -/
theorem bytes_bounds (h : v.HasStorage storage) (bs : Bytes) (hv : v = .bytes bs) :
    0 < bs.length ∧ bs.length ≤ 255 := by
  subst hv
  cases h with
  | bytes hsome hlength =>
    have hsize := UInt8.toNat_lt ‹UInt8›
    omega

/-- The storage that a selection of all dimensions gives a value. -/
theorem of_storageOf (h : Selection.storageOf v = some storage) : v.HasStorage storage := by
  cases v with
  | signed n =>
    cases h
    exact signed n
  | unsigned n =>
    cases h
    exact unsigned n
  | float x =>
    cases h
    exact float x
  | bytes bs =>
    obtain ⟨size, rfl, hlength, hsize⟩ := Selection.storageOf_bytes h
    have hpos : size.toNat ≠ 0 := fun hzero ↦ hsize (UInt8.toNat_inj.1 hzero)
    exact bytes (by omega) hlength.symm

end Value.HasStorage

namespace Selection

/-- The dimensions that stand for the fields of a point that a format has no place for. -/
structure SampledLayout (sample : Point) (format : UInt8) (dims : List ExtraDim) : Prop where
  /-- Each such field has one dimension, unless it is a run of bytes that is empty or too long. -/
  kept : ∀ d v, sample.get? d = some v → d ∉ FormatLayout.dimensionsOf format →
    (∀ bs, v = .bytes bs → 0 < bs.length ∧ bs.length ≤ 255) → ∃! dim, dim ∈ dims ∧ dim.id = d
  /-- There are no other dimensions, and each has the storage of the values of its field. -/
  stored : ∀ dim ∈ dims, dim.id ∉ FormatLayout.dimensionsOf format ∧
    ∃ v, sample.get? dim.id = some v ∧ v.HasStorage dim.storage
  plain : ∀ dim ∈ dims, dim.transform = .identity
  /-- Names ascend in the order of their bytes. -/
  ascending : dims.Pairwise fun dim later ↦
    Utf8.encode dim.name.toList < Utf8.encode later.name.toList
  /-- Each dimension begins behind those in front of it. -/
  placed : ∀ i dim, dims[i]? = some dim → dim.offset = (ExtraDim.totalSize (dims.take i) : Int)

variable {sample p q : Point} {format : UInt8} {dims others : List ExtraDim}

/-! ## One layout -/

/-- Lists that ascend by some bytes of their members are the same if they have the same members. -/
theorem eq_of_ascending {α : Type} (key : α → Bytes) {as bs : List α}
    (has : as.Pairwise fun a later ↦ key a < key later)
    (hbs : bs.Pairwise fun b later ↦ key b < key later) (hmem : ∀ a, a ∈ as ↔ a ∈ bs) :
    as = bs := by
  have hnodup : ∀ {cs : List α}, (cs.Pairwise fun c later ↦ key c < key later) → cs.Nodup := by
    intro cs hcs
    refine hcs.imp ?_
    rintro c _ hlt rfl
    exact List.lt_irrefl _ hlt
  refine List.Perm.eq_of_pairwise ?_ has hbs
    ((List.perm_ext_iff_of_nodup (hnodup has) (hnodup hbs)).2 hmem)
  intro a b _ _ hlt hgt
  exact absurd (List.lt_trans hlt hgt) (List.lt_irrefl _)

namespace SampledLayout

/-- A layout depends on the values of a point alone. -/
theorem of_get?_eq (hdims : SampledLayout p format dims) (hsame : ∀ d, q.get? d = p.get? d) :
    SampledLayout q format dims where
  kept d v hvalue := hdims.kept d v (hsame d ▸ hvalue)
  stored dim hdim := by
    rw [hsame]
    exact hdims.stored dim hdim
  plain := hdims.plain
  ascending := hdims.ascending
  placed := hdims.placed

/-- Each dimension of a layout is one of any other, up to its place. -/
theorem exists_mem (hdims : SampledLayout sample format dims)
    (hothers : SampledLayout sample format others) {dim : ExtraDim} (hdim : dim ∈ dims) :
    ∃ other ∈ others, ({ other with offset := 0 } : ExtraDim) = { dim with offset := 0 } := by
  obtain ⟨hplace, v, hvalue, hstorage⟩ := hdims.stored dim hdim
  obtain ⟨other, ⟨hother, hid⟩, -⟩ := hothers.kept _ v hvalue hplace hstorage.bytes_bounds
  obtain ⟨-, w, hw, hwstorage⟩ := hothers.stored other hother
  obtain rfl : v = w := Option.some.inj (hvalue.symm.trans (hid ▸ hw))
  have hname : other.name = dim.name := by
    have hnames := congrArg Dimension.name hid
    rwa [ExtraDim.id, ExtraDim.id, Dimension.name_ofName, Dimension.name_ofName] at hnames
  refine ⟨other, hother, ?_⟩
  rw [hname, hwstorage.unique hstorage, hothers.plain other hother, hdims.plain dim hdim]

/-- There is one layout only. -/
theorem unique (hdims : SampledLayout sample format dims)
    (hothers : SampledLayout sample format others) : dims = others := by
  let unplaced := fun dim : ExtraDim ↦ ({ dim with offset := 0 } : ExtraDim)
  have hmem : ∀ dim, dim ∈ dims.map unplaced ↔ dim ∈ others.map unplaced := by
    intro dim
    simp only [List.mem_map]
    constructor
    · rintro ⟨dim, hdim, rfl⟩
      exact hdims.exists_mem hothers hdim
    · rintro ⟨other, hother, rfl⟩
      exact hothers.exists_mem hdims hother
  have hunplaced : dims.map unplaced = others.map unplaced :=
    eq_of_ascending (fun dim ↦ Utf8.encode dim.name.toList)
      (List.pairwise_map.2 hdims.ascending) (List.pairwise_map.2 hothers.ascending) hmem
  have hforgets : ∀ layout : List ExtraDim, ∀ dim ∈ layout,
      ∃ place, unplaced dim = { dim with offset := place } := fun _ _ _ ↦ ⟨0, rfl⟩
  calc dims
      = ExtraDim.contiguous 0 (dims.map unplaced) := by
        rw [ExtraDim.contiguous_map (hforgets dims), ExtraDim.contiguous_eq_self hdims.placed]
    _ = ExtraDim.contiguous 0 (others.map unplaced) := by rw [hunplaced]
    _ = others := by
        rw [ExtraDim.contiguous_map (hforgets others), ExtraDim.contiguous_eq_self hothers.placed]

end SampledLayout

/-! ## The layout of sampled dimensions -/

/-- Fields whose names lead back to them are listed by strictly ascending names. -/
theorem pairwise_unplaced (hcanonical : ∀ d ∈ sample.dimensions, d.IsCanonical) :
    (unplaced sample format).Pairwise fun field later ↦ field.1.name < later.1.name := by
  have hsorted : (unplaced sample format).Pairwise fun field later ↦
      decide (field.1.name ≤ later.1.name) = true := by
    refine List.pairwise_mergeSort ?_ ?_ _
    · intro a b c hab hbc
      exact decide_eq_true (String.le_trans (of_decide_eq_true hab) (of_decide_eq_true hbc))
    · intro a b
      simpa using String.le_total a.1.name b.1.name
  have hnodup : ((unplaced sample format).map Prod.fst).Nodup := nodup_map_fst_unplaced
  rw [List.Nodup, List.pairwise_map] at hnodup
  refine (hsorted.and hnodup).imp_of_mem ?_
  rintro ⟨d, v⟩ ⟨e, w⟩ hd he ⟨hle, hne⟩
  refine Std.lt_of_le_of_ne (of_decide_eq_true hle) fun hsame ↦ hne ?_
  rw [← ofName_name_of_mem_unplaced hcanonical hd, ← ofName_name_of_mem_unplaced hcanonical he]
  exact congrArg Dimension.ofName hsame

theorem pairwise_carried (hcanonical : ∀ d ∈ sample.dimensions, d.IsCanonical) :
    (carried sample format).Pairwise fun dim later ↦
      Utf8.encode dim.name.toList < Utf8.encode later.name.toList := by
  rw [carried, List.pairwise_filterMap]
  refine (pairwise_unplaced hcanonical).imp ?_
  rintro ⟨d, v⟩ ⟨e, w⟩ hlt dim hdim later hlater
  obtain ⟨_, -, rfl⟩ := Option.map_eq_some_iff.1 hdim
  obtain ⟨_, -, rfl⟩ := Option.map_eq_some_iff.1 hlater
  exact Utf8.encode_lt_encode (String.lt_iff.1 hlt)

/-- The dimensions of a sample point are a layout of its fields. -/
theorem sampledLayout_sampled (hcanonical : ∀ d ∈ sample.dimensions, d.IsCanonical) :
    SampledLayout sample format (sampled sample format) where
  kept d v hvalue hother hbytes := by
    obtain ⟨storage, hstorage⟩ := exists_storageOf hbytes
    have hcarried := mem_carried.2 ⟨d, v, storage, hvalue, hother, hstorage, rfl⟩
    obtain ⟨place, hdim⟩ := ExtraDim.exists_mem_contiguous hcarried 0
    have hid : Dimension.ofName d.name = d :=
      hcanonical d (List.mem_map_of_mem (Point.get?_eq_some_iff.1 hvalue))
    have hnodup : ((sampled sample format).map ExtraDim.id).Nodup := by
      rw [sampled_eq, ExtraDim.map_contiguous ExtraDim.id fun _ _ ↦ rfl]
      exact nodup_map_id_carried hcanonical
    refine ⟨_, ⟨hdim, hid⟩, ?_⟩
    rintro other ⟨hmem, hsame⟩
    exact List.inj_on_of_nodup_map hnodup hmem hdim (hsame.trans hid.symm)
  stored := by
    rw [sampled_eq]
    refine (ExtraDim.forall_mem_contiguous (fun dim ↦ (dim.id, dim.storage)) (fun _ _ ↦ rfl)
      (P := fun key ↦ key.1 ∉ FormatLayout.dimensionsOf format ∧
        ∃ v, sample.get? key.1 = some v ∧ v.HasStorage key.2)).2 fun dim hdim ↦ ?_
    obtain ⟨d, v, storage, hvalue, hother, hstorage, rfl⟩ := mem_carried.1 hdim
    have hid : ExtraDim.id (.plain d.name storage 0) = d :=
      hcanonical d (List.mem_map_of_mem (Point.get?_eq_some_iff.1 hvalue))
    rw [hid]
    exact ⟨hother, v, hvalue, .of_storageOf hstorage⟩
  plain := by
    rw [sampled_eq]
    refine (ExtraDim.forall_mem_contiguous ExtraDim.transform (fun _ _ ↦ rfl)
      (P := (· = Transform.identity))).2 fun dim hdim ↦ ?_
    obtain ⟨d, v, storage, -, -, -, rfl⟩ := mem_carried.1 hdim
    rfl
  ascending := by
    have hnames : ((carried sample format).map ExtraDim.name).Pairwise fun name later ↦
        Utf8.encode name.toList < Utf8.encode later.toList :=
      List.pairwise_map.2 (pairwise_carried hcanonical)
    rw [sampled_eq, ← List.pairwise_map (f := ExtraDim.name)
      (R := fun name later ↦ Utf8.encode name.toList < Utf8.encode later.toList),
      ExtraDim.map_contiguous ExtraDim.name fun _ _ ↦ rfl]
    exact hnames
  placed i dim hdim := by
    have hplace := ExtraDim.offset_of_getElem?_contiguous hdim
    rwa [Int.zero_add] at hplace

/-- A selection of all dimensions has the layout of the point's fields and no other, in whatever
order the point lists them. -/
theorem resolve_all (hcanonical : ∀ d ∈ p.dimensions, d.IsCanonical)
    (hfields : q.fields.Perm p.fields) (format : UInt8) :
    all.resolve q format = all.resolve p format ∧
      ∀ dims, all.resolve p format = dims ↔ SampledLayout p format dims := by
  have hsame : ∀ d, p.get? d = q.get? d := by
    intro d
    refine Option.ext fun v ↦ ?_
    rw [Point.get?_eq_some_iff, Point.get?_eq_some_iff, hfields.mem_iff]
  have hother : ∀ d ∈ q.dimensions, d.IsCanonical := fun d hd ↦
    hcanonical d ((hfields.map Prod.fst).mem_iff.1 hd)
  have hlayout : SampledLayout p format (all.resolve p format) := sampledLayout_sampled hcanonical
  have hreordered : SampledLayout q format (all.resolve q format) := sampledLayout_sampled hother
  refine ⟨(hreordered.of_get?_eq hsame).unique hlayout, fun dims ↦ ?_⟩
  constructor
  · rintro rfl
    exact hlayout
  · exact hlayout.unique

/-- Fields of every kind, the last ones first; the empty run and the one that is too long leave no
gap. -/
theorem resolve_all_reversed :
    let ascending : List (Dimension × Value) := [(.user "Blob", .bytes [1, 2]),
      (.user "Empty", .bytes []), (.gpsTime, .float .one),
      (.user "Long", .bytes (List.replicate 256 0)), (.x, .float .zero),
      (.user "count", .unsigned 9007199254740993), (.user "höhe", .signed (-1)),
      (.user "𝄞", .bytes [3])]
    let p := Point.empty.setAll ascending.reverse
    let q := Point.empty.setAll ascending
    let dims : List ExtraDim := [.plain "Blob" (.raw 2) 0, .plain "GpsTime" (.scalar .double) 2,
      .plain "count" (.scalar (.unsigned .eight)) 10, .plain "höhe" (.scalar (.signed .eight)) 18,
      .plain "𝄞" (.raw 1) 26]
    (∀ d ∈ p.dimensions, d.IsCanonical) ∧ q.fields.Perm p.fields ∧
      all.resolve p 0 = dims ∧ all.resolve q 0 = dims ∧ SampledLayout p 0 dims := by
  intro ascending p q dims
  have hcanonical : ∀ d ∈ p.dimensions, d.IsCanonical := by decide +kernel
  have hfields : q.fields.Perm p.fields := by decide +kernel
  have hq : all.resolve q 0 = dims := by
    have hsorted : (q.fields.filter fun field ↦
        !(FormatLayout.dimensionsOf 0).contains field.1).Pairwise
          fun a b ↦ decide (a.1.name ≤ b.1.name) = true := by
      decide +kernel
    have hunplaced : unplaced q 0 = q.fields.filter fun field ↦
        !(FormatLayout.dimensionsOf 0).contains field.1 :=
      List.mergeSort_of_pairwise hsorted
    rw [resolve, sampled, hunplaced]
    decide +kernel
  obtain ⟨hsame, hunique⟩ := resolve_all hcanonical hfields 0
  have hp : all.resolve p 0 = dims := hsame.symm.trans hq
  exact ⟨hcanonical, hfields, hp, hq, (hunique dims).1 hp⟩

end Selection

end LasFile
