import LasFile.Error

/-!
# Steps that may fail

When steps in sequence succeed, each of them did. `Ensures` states what holds of a result, if there
is one, without saying that there is one.
-/

namespace LasFile.Outcome

variable {ε α β : Type}

theorem bind_eq_ok {x : Except ε α} {f : α → Except ε β} {b : β} :
    (x >>= f) = .ok b ↔ ∃ a, x = .ok a ∧ f a = .ok b := by
  cases x <;> simp [bind, Except.bind]

theorem map_eq_ok {x : Except ε α} {f : α → β} {b : β} :
    (f <$> x) = .ok b ↔ ∃ a, x = .ok a ∧ f a = b := by
  cases x <;> simp [Functor.map, Except.map]

theorem pure_eq_ok {a b : α} : (pure a : Except ε α) = .ok b ↔ a = b := by
  simp [pure, Except.pure]

theorem eq_ok_of_toOption {x : Except ε α} {a : α} (h : x.toOption = some a) : x = .ok a := by
  cases x with
  | error e => cases h
  | ok b =>
    cases h
    rfl

theorem isSome_toOption {x : Except ε α} : x.toOption.isSome = true ↔ ∃ a, x = .ok a := by
  cases x <;> simp [Except.toOption]

/-- A step over a list succeeds where it does for the first element and for the others. -/
theorem mapM_cons_eq_ok {f : α → Except ε β} {a : α} {as : List α} {bs : List β} :
    (a :: as).mapM f = .ok bs ↔
      ∃ b rest, f a = .ok b ∧ as.mapM f = .ok rest ∧ bs = b :: rest := by
  simp only [List.mapM_cons, bind_eq_ok, pure_eq_ok]
  constructor
  · rintro ⟨b, hb, rest, hrest, rfl⟩
    exact ⟨b, rest, hb, hrest, rfl⟩
  · rintro ⟨b, rest, hb, hrest, rfl⟩
    exact ⟨b, hb, rest, hrest, rfl⟩

/-- A step over a list fails where it first does. -/
theorem mapM_cons_eq_error {f : α → Except ε β} {a : α} {as : List α} {e : ε} :
    (a :: as).mapM f = .error e ↔
      f a = .error e ∨ ∃ b, f a = .ok b ∧ as.mapM f = .error e := by
  rw [List.mapM_cons]
  cases f a <;> cases as.mapM f <;> simp [bind, Except.bind, pure, Except.pure]

/-- A step over a list fails as it does at the first element that it fails at. -/
theorem mapM_eq_error_iff {f : α → Except ε β} {as : List α} {e : ε} : as.mapM f = .error e ↔
    ∃ (i : Nat) (a : α), as[i]? = some a ∧ f a = .error e ∧
      ∀ j < i, ∀ b, as[j]? = some b → ∃ c, f b = .ok c := by
  induction as with
  | nil =>
    constructor
    · rintro ⟨⟩
    · rintro ⟨i, a, ha, -⟩
      cases ha
  | cons first as ih =>
    rw [mapM_cons_eq_error, ih]
    constructor
    · rintro (hfirst | ⟨c, hfirst, i, a, ha, hfails, hbefore⟩)
      · exact ⟨0, first, rfl, hfirst, fun j hj ↦ absurd hj (Nat.not_lt_zero j)⟩
      · refine ⟨i + 1, a, ha, hfails, fun j hj b hb ↦ ?_⟩
        cases j with
        | zero => exact ⟨c, Option.some.inj hb ▸ hfirst⟩
        | succ j => exact hbefore j (Nat.lt_of_succ_lt_succ hj) b hb
    · rintro ⟨i, a, ha, hfails, hbefore⟩
      cases i with
      | zero => exact .inl (Option.some.inj ha ▸ hfails)
      | succ i =>
        obtain ⟨c, hfirst⟩ := hbefore 0 (Nat.succ_pos i) first rfl
        exact .inr ⟨c, hfirst, i, a, ha, hfails,
          fun j hj b hb ↦ hbefore (j + 1) (Nat.succ_lt_succ hj) b hb⟩

/-- A step over a list fails with the failure of the first element that it fails at. -/
theorem mapM_append_cons_eq_error {f : α → Except ε β} {before after : List α} {a : α} {e : ε}
    (hbefore : ∀ b ∈ before, ∃ c, f b = .ok c) (ha : f a = .error e) :
    (before ++ a :: after).mapM f = .error e := by
  apply mapM_eq_error_iff.2
  refine ⟨before.length, a, by simp, ha, fun j hj b hb ↦ ?_⟩
  rw [List.getElem?_append_left hj] at hb
  exact hbefore b (List.mem_of_getElem? hb)

/-- A step over a list fails at one of the elements, and goes through only at all of them. -/
theorem exists_mem_of_mapM_eq_error {f : α → Except ε β} {as : List α} {e : ε}
    (h : as.mapM f = .error e) : ∃ a ∈ as, f a = .error e := by
  obtain ⟨i, a, ha, herror, -⟩ := mapM_eq_error_iff.1 h
  exact ⟨a, List.mem_of_getElem? ha, herror⟩

theorem exists_eq_ok_of_mapM_eq_ok {f : α → Except ε β} {as : List α} {bs : List β}
    (h : as.mapM f = .ok bs) : ∀ a ∈ as, ∃ b, f a = .ok b := by
  induction as generalizing bs with
  | nil => simp
  | cons a as ih =>
    obtain ⟨b, rest, hb, hrest, -⟩ := mapM_cons_eq_ok.1 h
    exact List.forall_mem_cons.2 ⟨⟨b, hb⟩, ih hrest⟩

theorem mapM_nil_eq_ok {f : α → Except ε β} {bs : List β} : [].mapM f = .ok bs ↔ bs = [] := by
  rw [List.mapM_nil, pure_eq_ok, eq_comm]

/-- A step over a list that succeeds everywhere gives all results in order. -/
theorem mapM_eq_ok_of_forall {f : α → Except ε β} {g : α → β} {as : List α}
    (h : ∀ a ∈ as, f a = .ok (g a)) : as.mapM f = .ok (as.map g) := by
  induction as with
  | nil => rfl
  | cons a as ih =>
    obtain ⟨ha, has⟩ := List.forall_mem_cons.1 h
    exact mapM_cons_eq_ok.2 ⟨g a, as.map g, ha, ih has, rfl⟩

/-- A step over a list succeeds if it does at each element. -/
theorem exists_mapM_eq_ok {f : α → Except ε β} {as : List α} (h : ∀ a ∈ as, ∃ b, f a = .ok b) :
    ∃ bs, as.mapM f = .ok bs := by
  cases hresult : as.mapM f with
  | ok bs => exact ⟨bs, rfl⟩
  | error e =>
    obtain ⟨a, ha, herror⟩ := exists_mem_of_mapM_eq_error hresult
    obtain ⟨b, hb⟩ := h a ha
    cases herror.symm.trans hb

theorem mapM_append_eq_ok {f : α → Except ε β} {as others : List α} {bs : List β} :
    (as ++ others).mapM f = .ok bs ↔
      ∃ front back, as.mapM f = .ok front ∧ others.mapM f = .ok back ∧ bs = front ++ back := by
  simp only [List.mapM_append, bind_eq_ok, pure_eq_ok]
  constructor
  · rintro ⟨front, hfront, back, hback, rfl⟩
    exact ⟨front, back, hfront, hback, rfl⟩
  · rintro ⟨front, back, hfront, hback, rfl⟩
    exact ⟨front, hfront, back, hback, rfl⟩

/-- What holds of the results of a step over a list. -/
theorem forall_mem_of_mapM_eq_ok {f : α → Except ε β} {P : β → Prop} {as : List α} {bs : List β}
    (h : as.mapM f = .ok bs) (hstep : ∀ a ∈ as, ∀ b, f a = .ok b → P b) : ∀ b ∈ bs, P b := by
  induction as generalizing bs with
  | nil =>
    obtain rfl := mapM_nil_eq_ok.1 h
    simp
  | cons a as ih =>
    obtain ⟨b, rest, hb, hrest, rfl⟩ := mapM_cons_eq_ok.1 h
    obtain ⟨ha, has⟩ := List.forall_mem_cons.1 hstep
    exact List.forall_mem_cons.2 ⟨ha b hb, ih hrest has⟩

theorem length_of_mapM_eq_ok {f : α → Except ε β} {as : List α} {bs : List β}
    (h : as.mapM f = .ok bs) : bs.length = as.length := by
  induction as generalizing bs with
  | nil => rw [mapM_nil_eq_ok.1 h, List.length_nil, List.length_nil]
  | cons a as ih =>
    obtain ⟨b, rest, -, hrest, rfl⟩ := mapM_cons_eq_ok.1 h
    rw [List.length_cons, List.length_cons, ih hrest]

/-- An element and what a step over it gives stand at the same places. -/
theorem getElem?_of_mapM_eq_ok {f : α → Except ε β} {as : List α} {bs : List β}
    (h : as.mapM f = .ok bs) {i : Nat} {a : α} (ha : as[i]? = some a) :
    ∃ b, f a = .ok b ∧ bs[i]? = some b := by
  induction as generalizing bs i with
  | nil => cases ha
  | cons first as ih =>
    obtain ⟨b, rest, hb, hrest, rfl⟩ := mapM_cons_eq_ok.1 h
    cases i with
    | zero => exact ⟨b, Option.some.inj ha ▸ hb, rfl⟩
    | succ i => exact ih hrest ha

/-- Elements are counted by what a step over them gives. -/
theorem countP_of_mapM_eq_ok {f : α → Except ε β} {as : List α} {bs : List β}
    (h : as.mapM f = .ok bs) {p : α → Bool} {q : β → Bool}
    (hstep : ∀ a ∈ as, ∀ b, f a = .ok b → p a = q b) : as.countP p = bs.countP q := by
  induction as generalizing bs with
  | nil =>
    obtain rfl := mapM_nil_eq_ok.1 h
    rfl
  | cons a as ih =>
    obtain ⟨b, rest, hb, hrest, rfl⟩ := mapM_cons_eq_ok.1 h
    obtain ⟨ha, has⟩ := List.forall_mem_cons.1 hstep
    rw [List.countP_cons, List.countP_cons, ih hrest has, ha b hb]

/-- What the elements unfold to is what the results of a step over them unfold to. -/
theorem flatMap_of_mapM_eq_ok {γ : Type} {f : α → Except ε β} {as : List α} {bs : List β}
    (h : as.mapM f = .ok bs) {g : α → List γ} {k : β → List γ}
    (hstep : ∀ a ∈ as, ∀ b, f a = .ok b → g a = k b) : as.flatMap g = bs.flatMap k := by
  induction as generalizing bs with
  | nil =>
    obtain rfl := mapM_nil_eq_ok.1 h
    rfl
  | cons a as ih =>
    obtain ⟨b, rest, hb, hrest, rfl⟩ := mapM_cons_eq_ok.1 h
    obtain ⟨ha, has⟩ := List.forall_mem_cons.1 hstep
    rw [List.flatMap_cons, List.flatMap_cons, ih hrest has, ha b hb]

/-! ## Properties of results -/

/-- Whatever the computation gives has the property. -/
def Ensures (x : Except ε α) (P : α → Prop) : Prop := ∀ a, x = .ok a → P a

theorem ensures_ok {P : α → Prop} {a : α} (h : P a) : Ensures (.ok a : Except ε α) P := by
  rintro _ ⟨⟩
  exact h

/-- A property that the last step ensures whatever the first one gave. -/
theorem Ensures.bind {x : Except ε α} {f : α → Except ε β} {P : β → Prop}
    (h : ∀ a, Ensures (f a) P) : Ensures (x >>= f) P := by
  intro b hb
  obtain ⟨a, -, ha⟩ := bind_eq_ok.1 hb
  exact h a b ha

theorem Ensures.map {x : Except ε α} {f : α → β} {P : β → Prop} (h : ∀ a, P (f a)) :
    Ensures (f <$> x) P := by
  intro b hb
  obtain ⟨a, -, rfl⟩ := map_eq_ok.1 hb
  exact h a

/-! ## Properties of failures -/

/-- Whatever failure the computation ends with has the property. -/
def Raises (x : Except ε α) (P : ε → Prop) : Prop := ∀ e, x = .error e → P e

theorem raises_ok {P : ε → Prop} (a : α) : Raises (.ok a : Except ε α) P := by
  rintro _ ⟨⟩

theorem Raises.imp {x : Except ε α} {P Q : ε → Prop} (hx : Raises x P) (h : ∀ e, P e → Q e) :
    Raises x Q := fun e he ↦ h e (hx e he)

theorem Raises.bind {x : Except ε α} {f : α → Except ε β} {P : ε → Prop} (hx : Raises x P)
    (hf : ∀ a, Raises (f a) P) : Raises (x >>= f) P := by
  intro e he
  cases x with
  | ok a => exact hf a e he
  | error _ =>
    cases he
    exact hx e rfl

theorem Raises.map {x : Except ε α} {P : ε → Prop} (hx : Raises x P) (f : α → β) :
    Raises (f <$> x) P := by
  intro e he
  cases x with
  | ok a => cases he
  | error _ =>
    cases he
    exact hx e rfl

end LasFile.Outcome
