import LasFile.ExtraDim.Selection

/-!
# Dimensions without gaps

`ExtraDim.contiguous` and `ExtraDim.relocate` change places alone. Each of some dimensions that were
placed without gaps begins behind those in front of it and ends within the size of all of them.
-/

namespace LasFile.ExtraDim

@[simp]
theorem totalSize_contiguous (start : Int) (dims : List ExtraDim) :
    totalSize (contiguous start dims) = totalSize dims := by
  induction dims generalizing start with
  | nil => rfl
  | cons d ds ih =>
    rw [contiguous, totalSize, totalSize, ih]
    rfl

/-- Dimensions of one size take it as often as there are dimensions. -/
theorem totalSize_of_forall_size {dims : List ExtraDim} {size : Nat}
    (h : ∀ d ∈ dims, d.size = size) : totalSize dims = dims.length * size := by
  induction dims with
  | nil => rw [totalSize, List.length_nil, Nat.zero_mul]
  | cons d ds ih =>
    obtain ⟨hd, hds⟩ := List.forall_mem_cons.1 h
    rw [totalSize, hd, ih hds, List.length_cons, Nat.succ_mul, Nat.add_comm]

theorem totalSize_append (dims others : List ExtraDim) :
    totalSize (dims ++ others) = totalSize dims + totalSize others := by
  induction dims with
  | nil => rw [List.nil_append, totalSize, Nat.zero_add]
  | cons d ds ih => rw [List.cons_append, totalSize, totalSize, ih, Nat.add_assoc]

/-- Dimensions behind others are placed where the sizes of those lead to. -/
theorem contiguous_append (start : Int) (dims others : List ExtraDim) :
    contiguous start (dims ++ others) =
      contiguous start dims ++ contiguous (start + totalSize dims) others := by
  induction dims generalizing start with
  | nil => rw [List.nil_append, contiguous, totalSize, Int.natCast_zero, Int.add_zero,
      List.nil_append]
  | cons d ds ih => rw [List.cons_append, contiguous, ih, contiguous, List.cons_append, totalSize,
      Int.natCast_add, Int.add_assoc]

@[simp]
theorem isEmpty_contiguous (start : Int) (dims : List ExtraDim) :
    (contiguous start dims).isEmpty = dims.isEmpty := by
  cases dims <;> rfl

@[simp]
theorem length_contiguous (start : Int) (dims : List ExtraDim) :
    (contiguous start dims).length = dims.length := by
  induction dims generalizing start with
  | nil => rfl
  | cons d ds ih => rw [contiguous, List.length_cons, List.length_cons, ih]

/-- What does not depend on places is the same of dimensions without gaps. -/
theorem map_contiguous {α : Type} (g : ExtraDim → α)
    (hg : ∀ (d : ExtraDim) place, g { d with offset := place } = g d) (start : Int)
    (dims : List ExtraDim) : (contiguous start dims).map g = dims.map g := by
  induction dims generalizing start with
  | nil => rfl
  | cons d ds ih => rw [contiguous, List.map_cons, List.map_cons, hg, ih]

theorem forall_mem_contiguous {α : Type} (g : ExtraDim → α)
    (hg : ∀ (d : ExtraDim) place, g { d with offset := place } = g d) {P : α → Prop} {start : Int}
    {dims : List ExtraDim} : (∀ d ∈ contiguous start dims, P (g d)) ↔ ∀ d ∈ dims, P (g d) := by
  rw [← List.forall_mem_map (f := g) (P := P), map_contiguous g hg, List.forall_mem_map]

/-- Placing dimensions forgets the places that they had. -/
theorem contiguous_map {g : ExtraDim → ExtraDim} {dims : List ExtraDim}
    (hg : ∀ d ∈ dims, ∃ place, g d = { d with offset := place }) (start : Int) :
    contiguous start (dims.map g) = contiguous start dims := by
  induction dims generalizing start with
  | nil => rfl
  | cons d ds ih =>
    obtain ⟨⟨place, hplace⟩, hrest⟩ := List.forall_mem_cons.1 hg
    rw [List.map_cons, contiguous, ih hrest, hplace]
    rfl

/-- Dimensions agree one by one exactly if they have the same names and storage. -/
theorem allAgree_iff {as bs : List ExtraDim} : allAgree as bs = true ↔
    as.map (fun d ↦ (d.name, d.storage)) = bs.map fun d ↦ (d.name, d.storage) := by
  induction as generalizing bs with
  | nil => cases bs <;> simp [allAgree]
  | cons a as ih =>
    cases bs with
    | nil => simp [allAgree]
    | cons b bs => simp [allAgree, agrees, ih]

/-- Moving dimensions without gaps places them elsewhere. -/
theorem relocate_contiguous_at (start place : Int) (dims : List ExtraDim) :
    relocate start (contiguous place dims) = contiguous (place + start) dims := by
  induction dims generalizing place with
  | nil => rfl
  | cons d ds ih =>
    have hplace : place + d.size + start = place + start + d.size := by omega
    have hrest := ih (place + d.size)
    rw [hplace] at hrest
    exact congrArg (_ :: ·) hrest

theorem relocate_contiguous (start : Int) (dims : List ExtraDim) :
    relocate start (contiguous 0 dims) = contiguous start dims := by
  rw [relocate_contiguous_at, Int.zero_add]

/-- The length of a record does not depend on where its extra dimensions are placed. -/
theorem recordLength_contiguous (format : FormatLayout) (start : Int) (dims : List ExtraDim) :
    format.recordLength (contiguous start dims) = format.recordLength dims := by
  rw [FormatLayout.recordLength, totalSize_contiguous, FormatLayout.recordLength]

/-- A dimension placed without gaps begins behind those in front of it. -/
theorem getElem?_contiguous (start : Int) (dims : List ExtraDim) (i : Nat) :
    (contiguous start dims)[i]? =
      dims[i]?.map fun d ↦ { d with offset := start + totalSize (dims.take i) } := by
  induction dims generalizing start i with
  | nil => rfl
  | cons d ds ih =>
    cases i with
    | zero => simp [contiguous, totalSize]
    | succ i =>
      have hplace : start + d.size + totalSize (ds.take i) =
          start + totalSize ((d :: ds).take (i + 1)) := by
        rw [List.take_succ_cons, totalSize]
        omega
      rw [contiguous, List.getElem?_cons_succ, List.getElem?_cons_succ, ih, hplace]

/-- Dimensions that stand where the sizes in front of them end are placed without gaps. -/
theorem contiguous_eq_self {dims : List ExtraDim}
    (h : ∀ (i : Nat) d, dims[i]? = some d → d.offset = (totalSize (dims.take i) : Int)) :
    contiguous 0 dims = dims := by
  refine List.ext_getElem? fun i ↦ ?_
  rw [getElem?_contiguous]
  cases hdim : dims[i]? with
  | none => rfl
  | some d => rw [Option.map_some, Int.zero_add, ← h i d hdim]

theorem take_contiguous (start : Int) (dims : List ExtraDim) (i : Nat) :
    (contiguous start dims).take i = contiguous start (dims.take i) := by
  induction dims generalizing start i with
  | nil => rw [contiguous, List.take_nil, contiguous]
  | cons d ds ih =>
    cases i with
    | zero => rfl
    | succ i => rw [contiguous, List.take_succ_cons, List.take_succ_cons, contiguous, ih]

/-- The place of a dimension is the sum of the sizes in front of it. -/
theorem offset_of_getElem?_contiguous {start : Int} {dims : List ExtraDim} {i : Nat} {d : ExtraDim}
    (h : (contiguous start dims)[i]? = some d) :
    d.offset = start + totalSize ((contiguous start dims).take i) := by
  rw [take_contiguous, totalSize_contiguous]
  rw [getElem?_contiguous, Option.map_eq_some_iff] at h
  obtain ⟨given, -, rfl⟩ := h
  rfl

theorem totalSize_take_add_size_le {dims : List ExtraDim} {i : Nat} {d : ExtraDim}
    (h : dims[i]? = some d) : totalSize (dims.take i) + d.size ≤ totalSize dims := by
  induction dims generalizing i with
  | nil => simp at h
  | cons e ds ih =>
    cases i with
    | zero =>
      obtain rfl : e = d := by simpa using h
      simp [totalSize]
    | succ i =>
      have hrest := ih (by simpa using h)
      rw [List.take_succ_cons, totalSize, totalSize]
      omega

/-- Every dimension gets some place. -/
theorem exists_mem_contiguous {d : ExtraDim} {dims : List ExtraDim} (h : d ∈ dims) (start : Int) :
    ∃ place, { d with offset := place } ∈ contiguous start dims := by
  obtain ⟨i, hi⟩ := List.mem_iff_getElem?.1 h
  have hplaced := getElem?_contiguous start dims i
  rw [hi] at hplaced
  exact ⟨_, List.mem_of_getElem? hplaced⟩

/-- Dimensions placed without gaps stand between the beginning of the first one and the place that
the sizes of all of them lead to. -/
theorem offset_of_mem_contiguous {start : Int} {dims : List ExtraDim} {d : ExtraDim}
    (h : d ∈ contiguous start dims) :
    start ≤ d.offset ∧ d.offset + d.size ≤ start + totalSize dims := by
  obtain ⟨i, hi⟩ := List.mem_iff_getElem?.1 h
  rw [getElem?_contiguous, Option.map_eq_some_iff] at hi
  obtain ⟨given, hgiven, rfl⟩ := hi
  have hsize : given.size =
      ExtraDim.size { given with offset := start + totalSize (dims.take i) } := rfl
  have hend := totalSize_take_add_size_le hgiven
  simp only [← hsize]
  omega

/-- Dimensions placed without gaps begin where the first one does. -/
theorem start_le_of_mem_contiguous {start : Nat} {dims : List ExtraDim} {d : ExtraDim}
    (h : d ∈ contiguous start dims) : start ≤ d.start := by
  have hplace := (offset_of_mem_contiguous h).1
  rw [ExtraDim.start]
  omega

/-- Dimensions placed without gaps do not reach into those behind them. -/
theorem pairwise_contiguous (start : Nat) (dims : List ExtraDim) :
    (contiguous start dims).Pairwise fun d later ↦ d.limit ≤ later.start := by
  induction dims generalizing start with
  | nil => exact .nil
  | cons d ds ih =>
    have hplace : (start : Int) + d.size = (start + d.size : Nat) := (Int.natCast_add ..).symm
    rw [contiguous, hplace]
    exact .cons (fun later hlater ↦ start_le_of_mem_contiguous hlater) (ih _)

/-- Dimensions without gaps between two places: the first one begins at the first place, each other
one where the one in front of it ends, and the last one ends at the second place. -/
inductive Adjoining : Int → List ExtraDim → Int → Prop
  | nil (place : Int) : Adjoining place [] place
  | cons {d : ExtraDim} {ds : List ExtraDim} {stop : Int}
    (hrest : Adjoining (d.offset + d.size) ds stop) : Adjoining d.offset (d :: ds) stop

theorem adjoining_contiguous (start : Int) (dims : List ExtraDim) :
    Adjoining start (contiguous start dims) (start + totalSize dims) := by
  induction dims generalizing start with
  | nil =>
    rw [contiguous, totalSize, Int.natCast_zero, Int.add_zero]
    exact .nil start
  | cons d ds ih =>
    have hrest := ih (start + d.size)
    rw [Int.add_assoc, ← Int.natCast_add] at hrest
    exact .cons (d := { d with offset := start }) hrest

end LasFile.ExtraDim
