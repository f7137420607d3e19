/-!
# Steps with a state

How the steps of a computation act on its state. A step that fails hands on the state that it
leaves, and nothing behind it is done.
-/

namespace LasFile.Stateful

variable {ε σ α β : Type}

/-- How a step ends that gives an answer and leaves a state. -/
def outcome (answer : Except ε α) (s : σ) : EStateM.Result ε σ α :=
  match answer with
  | .ok a => .ok a s
  | .error e => .error e s

@[simp]
theorem outcome_eq_ok {answer : Except ε α} {s t : σ} {a : α} :
    outcome answer s = .ok a t ↔ answer = .ok a ∧ s = t := by
  cases answer <;> simp [outcome]

@[simp]
theorem pure_apply (a : α) (s : σ) : (pure a : EStateM ε σ α) s = .ok a s := rfl

@[simp]
theorem modify_apply (g : σ → σ) (s : σ) : (modify g : EStateM ε σ Unit) s = .ok () (g s) := rfl

@[simp]
theorem get_bind (f : σ → EStateM ε σ β) (s : σ) : (get >>= f) s = f s s := rfl

@[simp]
theorem set_bind (t : σ) (f : PUnit → EStateM ε σ β) (s : σ) : (set t >>= f) s = f () t := rfl

@[simp]
theorem modify_bind (g : σ → σ) (f : Unit → EStateM ε σ β) (s : σ) :
    (modify g >>= f) s = f () (g s) := rfl

theorem bind_of_ok {x : EStateM ε σ α} {s t : σ} {a : α} (h : x s = .ok a t)
    (f : α → EStateM ε σ β) : (x >>= f) s = f a t := by
  simp only [Bind.bind, EStateM.bind, h]

theorem bind_of_error {x : EStateM ε σ α} {s t : σ} {e : ε} (h : x s = .error e t)
    (f : α → EStateM ε σ β) : (x >>= f) s = .error e t := by
  simp only [Bind.bind, EStateM.bind, h]

theorem map_of_ok {x : EStateM ε σ α} {s t : σ} {a : α} (h : x s = .ok a t) (f : α → β) :
    (f <$> x) s = .ok (f a) t := by
  simp only [Functor.map, EStateM.map, h]

theorem map_of_error {x : EStateM ε σ α} {s t : σ} {e : ε} (h : x s = .error e t) (f : α → β) :
    (f <$> x) s = .error e t := by
  simp only [Functor.map, EStateM.map, h]

/-- Steps in sequence succeed where both do. -/
theorem bind_eq_ok {x : EStateM ε σ α} {f : α → EStateM ε σ β} {s t : σ} {b : β} :
    (x >>= f) s = .ok b t ↔ ∃ a u, x s = .ok a u ∧ f a u = .ok b t := by
  cases h : x s with
  | ok a u =>
    rw [bind_of_ok h]
    constructor
    · exact fun hf ↦ ⟨a, u, rfl, hf⟩
    · rintro ⟨_, _, ⟨⟩, hf⟩
      exact hf
  | error e u =>
    rw [bind_of_error h]
    constructor
    · exact fun hf ↦ by cases hf
    · rintro ⟨_, _, ⟨⟩, -⟩

/-! ## Steps over a list -/

theorem forM_congr {f g : α → EStateM ε σ PUnit} {as : List α} (h : ∀ a ∈ as, f a = g a) :
    as.forM f = as.forM g := by
  induction as with
  | nil => rfl
  | cons a as ih =>
    obtain ⟨ha, has⟩ := List.forall_mem_cons.1 h
    show (f a >>= fun _ ↦ as.forM f) = (g a >>= fun _ ↦ as.forM g)
    rw [ha, ih has]

variable (f : α → EStateM ε σ PUnit) {s t : σ} {e : ε}

theorem forM_cons_of_ok {a : α} {u : PUnit} (h : f a s = .ok u t) (as : List α) :
    (a :: as).forM f s = as.forM f t := by
  rw [List.forM_eq_forM, List.forM_cons]
  exact bind_of_ok h _

theorem forM_cons_of_error {a : α} (h : f a s = .error e t) (as : List α) :
    (a :: as).forM f s = .error e t := by
  rw [List.forM_eq_forM, List.forM_cons]
  exact bind_of_error h _

theorem forM_append_of_ok {first : List α} {u : PUnit} (h : first.forM f s = .ok u t)
    (second : List α) : (first ++ second).forM f s = second.forM f t := by
  rw [List.forM_eq_forM, List.forM_append]
  exact bind_of_ok h _

theorem forM_append_of_error {first : List α} (h : first.forM f s = .error e t)
    (second : List α) : (first ++ second).forM f s = .error e t := by
  rw [List.forM_eq_forM, List.forM_append]
  exact bind_of_error h _

end LasFile.Stateful
