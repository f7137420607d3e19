import LasFile.Proofs.Draft.Step

/-!
# Runs of a draft

Points are tried on a draft one after the other, and a point that is refused does not end the run.
`Draft.writeAll` keeps the answers, the points that were accepted, and the draft in the end.
-/

namespace LasFile.Draft

/-- What became of some points that were tried on a draft. -/
structure Run where
  /-- The draft in the end. -/
  draft : Draft
  /-- One answer for each point. -/
  answers : List (Except Error Unit)
  /-- The points that were taken, in order. -/
  accepted : List Point

/-- Tries some points in order. -/
def writeAll (d : Draft) : List Point → Run
  | [] => ⟨d, [], []⟩
  | p :: ps =>
    match writePoint p d with
    | .ok () d =>
      let run := d.writeAll ps
      ⟨run.draft, .ok () :: run.answers, p :: run.accepted⟩
    | .error e d =>
      let run := d.writeAll ps
      ⟨run.draft, .error e :: run.answers, run.accepted⟩

theorem writeAll_cons_ok {d next : Draft} {p : Point} (h : writePoint p d = .ok () next)
    (ps : List Point) : d.writeAll (p :: ps) = ⟨(next.writeAll ps).draft,
      .ok () :: (next.writeAll ps).answers, p :: (next.writeAll ps).accepted⟩ := by
  rw [writeAll, h]

theorem writeAll_cons_error {d next : Draft} {p : Point} {e : Error}
    (h : writePoint p d = .error e next) (ps : List Point) : d.writeAll (p :: ps) =
      ⟨(next.writeAll ps).draft, .error e :: (next.writeAll ps).answers,
        (next.writeAll ps).accepted⟩ := by
  rw [writeAll, h]

/-- What holds of a draft and the points accepted so far, if accepting and refusing keep it, holds
at the end of every run. -/
theorem writeAll_invariant {I : Draft → List Point → Prop}
    (hok : ∀ {d next p accepted}, I d accepted → writePoint p d = .ok () next →
      I next (accepted ++ [p]))
    (herror : ∀ {d next p e accepted}, I d accepted → writePoint p d = .error e next →
      I next accepted)
    {d : Draft} {accepted : List Point} (h : I d accepted) (points : List Point) :
    I (d.writeAll points).draft (accepted ++ (d.writeAll points).accepted) := by
  induction points generalizing d accepted with
  | nil => simpa [writeAll] using h
  | cons p ps ih =>
    cases hstep : writePoint p d with
    | ok _ next =>
      have hrest := ih (hok h hstep)
      rw [List.append_assoc, List.singleton_append] at hrest
      rw [writeAll_cons_ok hstep]
      exact hrest
    | error e next =>
      rw [writeAll_cons_error hstep]
      exact ih (herror h hstep)

/-! ## Drafts with a settled layout -/

/-- The records of those points that a layout takes. -/
def recordsOf (layout : RecordLayout) (length : Nat) (points : List Point) : List Bytes :=
  points.filterMap fun p ↦ (layout.encode length p).toOption

/-- The points that a layout takes. -/
def takenBy (layout : RecordLayout) (length : Nat) (points : List Point) : List Point :=
  points.filter fun p ↦ (layout.encode length p).isOk

/-- Points that are taken and their records stand at the same places. -/
theorem getElem?_recordsOf {layout : RecordLayout} {length : Nat} {points : List Point} {i : Nat}
    {p : Point} (h : (takenBy layout length points)[i]? = some p) :
    ∃ record, layout.encode length p = .ok record ∧
      (recordsOf layout length points)[i]? = some record := by
  induction points generalizing i with
  | nil => simp [takenBy] at h
  | cons q qs ih =>
    cases hencode : layout.encode length q with
    | error e =>
      have htaken : takenBy layout length (q :: qs) = takenBy layout length qs := by
        simp [takenBy, hencode, Except.isOk, Except.toBool]
      have hrecords : recordsOf layout length (q :: qs) = recordsOf layout length qs := by
        simp [recordsOf, hencode, Except.toOption]
      rw [htaken] at h
      rw [hrecords]
      exact ih h
    | ok record =>
      have htaken : takenBy layout length (q :: qs) = q :: takenBy layout length qs := by
        simp [takenBy, hencode, Except.isOk, Except.toBool]
      have hrecords : recordsOf layout length (q :: qs) = record :: recordsOf layout length qs := by
        simp [recordsOf, hencode, Except.toOption]
      rw [htaken] at h
      rw [hrecords]
      cases i with
      | zero =>
        obtain rfl : q = p := by simpa using h
        exact ⟨record, hencode, rfl⟩
      | succ i => exact ih h

/-- Once the layout is settled, the answer to a point is that of its record, records follow each
other in order, and nothing else changes but what is counted. -/
theorem writeAll_of_layout {d : Draft} {layout : RecordLayout} (hlayout : d.layout = some layout)
    {memory content : Bytes} (hsink : d.sink = .holding memory content) (points : List Point) :
    d.writeAll points =
      { draft := { d with
          sink := .holding memory
            (content ++ (recordsOf layout d.header.recordLength.toNat points).flatten)
          tally := (takenBy layout d.header.recordLength.toNat points).foldl Tally.add d.tally }
        answers := points.map fun p ↦
          (layout.encode d.header.recordLength.toNat p).map fun _ ↦ ()
        accepted := takenBy layout d.header.recordLength.toNat points } := by
  induction points generalizing d content with
  | nil =>
    simp only [writeAll, recordsOf, takenBy, List.filterMap_nil, List.flatten_nil, List.append_nil,
      List.filter_nil, List.foldl_nil, List.map_nil, ← hsink]
  | cons p ps ih =>
    have hstep := writePoint_of_layout hlayout p
    cases hencode : layout.encode d.header.recordLength.toNat p with
    | ok record =>
      rw [hencode] at hstep
      have hnext : (d.accept p record).sink = .holding memory (content ++ record) := by
        rw [accept, hsink, Sink.write_holding]
      rw [writeAll_cons_ok hstep, ih (by exact hlayout) hnext]
      simp [recordsOf, takenBy, hencode, Except.toOption, Except.isOk, Except.toBool, Except.map,
        accept]
    | error e =>
      rw [hencode] at hstep
      rw [writeAll_cons_error hstep, ih hlayout hsink]
      simp [recordsOf, takenBy, hencode, Except.toOption, Except.isOk, Except.toBool, Except.map]

end LasFile.Draft
