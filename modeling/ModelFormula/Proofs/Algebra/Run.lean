import Mathlib.Data.List.Forall2
import ModelFormula.Store

/-!
# Computations that return

For a computation that returns, `Ends` relates the state before, the value and the state after. Each
way to combine computations has one rule.
-/
namespace ModelFormula

open List

variable {S α β : Type}
variable {x : ExceptT Fault (StateM S) α} {s s' : S} {a : α}
  {f : α → ExceptT Fault (StateM S) PUnit} {xs : List α} {Q : α → S → Prop}

/-- The result of a computation and the state that it leaves. -/
def outcome (x : ExceptT Fault (StateM S) α) (s : S) : Except Fault α × S := x.run.run s

/-- Begun in the first state, the computation returns the value and leaves the second state. -/
def Ends (x : ExceptT Fault (StateM S) α) (s : S) (a : α) (s' : S) : Prop :=
  outcome x s = (.ok a, s')

lemma ok_bind {ε : Type} (a : α) (f : α → Except ε β) : (Except.ok a >>= f) = f a := rfl

lemma pure_ok {ε : Type} (a : α) : (pure a : Except ε α) = .ok a := rfl

lemma toOption_eq_some {x : Except Fault α} : x.toOption = some a ↔ x = .ok a := by
  cases x <;> simp [Except.toOption]

/-- A view of the result and the store of a run shows that it ends. -/
lemma exists_ends_store {g : α → S → β} {v : β}
    (value : (outcome x s).1.toOption.map (g · (outcome x s).2) = some v) :
    ∃ a s', Ends x s a s' ∧ g a s' = v := by
  obtain ⟨a, done, holds⟩ := Option.map_eq_some_iff.mp value
  refine ⟨a, (outcome x s).2, ?_, holds⟩
  cases result : outcome x s with
  | mk r s' => cases r <;> simp_all [Ends, Except.toOption]

lemma exists_ends {g : α → β} {v : β} (value : (outcome x s).1.toOption.map g = some v) :
    ∃ a s', Ends x s a s' ∧ g a = v :=
  exists_ends_store (g := fun a _ => g a) value

lemma Ends.unique {r : S} {b : α} (first : Ends x s a s') (second : Ends x s b r) :
    a = b ∧ s' = r := by
  have eq := first.symm.trans second
  simpa using eq

lemma outcome_bind (x : ExceptT Fault (StateM S) α) (f : α → ExceptT Fault (StateM S) β) (s : S) :
    outcome (x >>= f) s = match outcome x s with
      | (.ok a, r) => outcome (f a) r
      | (.error fault, r) => (.error fault, r) := by
  simp only [outcome, bind, ExceptT.bind, ExceptT.bindCont, ExceptT.mk, ExceptT.run, StateT.run,
    StateT.bind]
  cases x s with
  | mk result r => cases result <;> rfl

lemma Ends.outcome_bind {f : α → ExceptT Fault (StateM S) β} {r : S} (ends : Ends x s a r) :
    outcome (x >>= f) s = outcome (f a) r := by
  rw [ModelFormula.outcome_bind, show outcome x s = (.ok a, r) from ends]

/-- A fault goes through. -/
lemma fault_bind {f : α → ExceptT Fault (StateM S) β} {fault : Fault}
    (fails : (outcome x s).1 = .error fault) : (outcome (x >>= f) s).1 = .error fault := by
  rw [outcome_bind]
  cases result : outcome x s with
  | mk r s' =>
    rw [result] at fails
    cases fails
    rfl

lemma ends_bind {f : α → ExceptT Fault (StateM S) β} :
    Ends (x >>= f) s b s' ↔ ∃ a r, Ends x s a r ∧ Ends (f a) r b s' := by
  simp only [Ends, outcome_bind]
  cases outcome x s with
  | mk result r => cases result <;> simp [and_assoc]

@[simp]
lemma ends_pure {b : α} : Ends (pure a : ExceptT Fault (StateM S) α) s b s' ↔ a = b ∧ s = s' := by
  have runs : outcome (pure a : ExceptT Fault (StateM S) α) s = (.ok a, s) := rfl
  simp [Ends, runs]

@[simp]
lemma ends_throw {fault : Fault} : ¬ Ends (throw fault : ExceptT Fault (StateM S) α) s a s' := by
  have runs : outcome (throw fault : ExceptT Fault (StateM S) α) s = (.error fault, s) := rfl
  simp [Ends, runs]

@[simp]
lemma ends_get {a : S} : Ends (get : ExceptT Fault (StateM S) S) s a s' ↔ s = a ∧ s = s' := by
  have runs : outcome (get : ExceptT Fault (StateM S) S) s = (.ok s, s) := rfl
  simp [Ends, runs]

@[simp]
lemma ends_modify {f : S → S} {u : PUnit} :
    Ends (modify f : ExceptT Fault (StateM S) PUnit) s u s' ↔ f s = s' := by
  have runs : outcome (modify f : ExceptT Fault (StateM S) PUnit) s = (.ok u, f s) := rfl
  simp [Ends, runs]

/-- A computation that does not look at the state. -/
@[simp]
lemma ends_lift {x : Except Fault α} :
    Ends (liftM x : ExceptT Fault (StateM S) α) s a s' ↔ x = .ok a ∧ s = s' := by
  have runs : outcome (liftM x : ExceptT Fault (StateM S) α) s = (x, s) := rfl
  simp [Ends, runs]

@[simp]
lemma ends_mk {x : Except Fault α} :
    Ends (ExceptT.mk (pure x) : ExceptT Fault (StateM S) α) s a s' ↔ x = .ok a ∧ s = s' := by
  have runs : outcome (ExceptT.mk (pure x) : ExceptT Fault (StateM S) α) s = (x, s) := rfl
  simp [Ends, runs]

section Bind

variable {f g : α → ExceptT Fault (StateM S) β}

lemma outcome_bind_congr (same : ∀ a r, Ends x s a r → outcome (f a) r = outcome (g a) r) :
    outcome (x >>= f) s = outcome (x >>= g) s := by
  rw [outcome_bind, outcome_bind]
  cases result : outcome x s with
  | mk r s' =>
    cases r with
    | error => rfl
    | ok a => exact same a s' result

lemma ends_bind_pure {f : α → β} :
    Ends (x >>= fun a => pure (f a)) s b s' ↔ ∃ a, Ends x s a s' ∧ f a = b := by
  simp only [ends_bind, ends_pure]
  exact ⟨fun ⟨a, r, first, eq, own⟩ => ⟨a, own ▸ first, eq⟩, fun ⟨a, first, eq⟩ =>
    ⟨a, s', first, eq, rfl⟩⟩

lemma ends_lift_bind {x : Except Fault α} :
    Ends (liftM x >>= f) s b s' ↔ ∃ a, x = .ok a ∧ Ends (f a) s b s' := by
  simp [ends_bind, and_assoc]

lemma ends_get_bind {f : S → ExceptT Fault (StateM S) β} :
    Ends (get >>= f) s b s' ↔ Ends (f s) s b s' := by
  simp [ends_bind]

end Bind

/-! ### Loops -/

lemma mapM_ok_iff (f : α → Except Fault β) (xs : List α) (ys : List β) :
    xs.mapM f = .ok ys ↔ List.Forall₂ (fun x y => f x = .ok y) xs ys := by
  induction xs generalizing ys with
  | nil => cases ys <;> simp [pure, Except.pure]
  | cons x xs ih =>
    rw [mapM_cons]
    cases first : f x with
    | error fault => cases ys <;> simp [bind, Except.bind, first]
    | ok y =>
      cases others : xs.mapM f with
      | error fault => cases ys <;> simp [bind, Except.bind, ← ih, others, first]
      | ok zs => cases ys <;> simp [bind, Except.bind, pure, Except.pure, ← ih, others, first]

lemma mapM_eq_map {f : α → Except Fault β} {g : α → β} {xs : List α}
    (each : ∀ x ∈ xs, f x = .ok (g x)) : xs.mapM f = .ok (xs.map g) := by
  rw [mapM_ok_iff, forall₂_map_right_iff, forall₂_same]
  exact each

/-- The action on one item after the other. -/
inductive RunsAll (f : α → ExceptT Fault (StateM S) PUnit) : List α → S → S → Prop
  | nil {s : S} : RunsAll f [] s s
  | cons {x : α} {xs : List α} {s r s' : S} (first : Ends (f x) s () r)
      (others : RunsAll f xs r s') : RunsAll f (x :: xs) s s'

lemma runsAll_of_forIn {u : PUnit}
    (ends : Ends (forIn xs PUnit.unit fun x _ => do f x; pure (.yield PUnit.unit)) s u s') :
    RunsAll f xs s s' := by
  induction xs generalizing s with
  | nil =>
    simp only [forIn_nil, ends_pure] at ends
    obtain ⟨_, rfl⟩ := ends
    exact .nil
  | cons x xs ih =>
    simp only [forIn_cons, ends_bind, ends_pure] at ends
    obtain ⟨_, r, ⟨_, r', first, rfl, rfl⟩, others⟩ := ends
    exact .cons first (ih others)

/-- What every action keeps is kept by all of them. -/
lemma RunsAll.invariant {P : S → Prop} (runs : RunsAll f xs s s')
    (keeps : ∀ x ∈ xs, ∀ r r', Ends (f x) r () r' → P r → P r') (begins : P s) : P s' := by
  induction runs with
  | nil => exact begins
  | @cons x xs s r s' first _ ih =>
    refine ih (fun y mem => keeps y (mem_cons_of_mem x mem)) ?_
    exact keeps x mem_cons_self s r first begins

/-- If every action brings about something for its own item and keeps what was brought about for the
others, then what holds for an item before a part of the run holds after it too. -/
lemma RunsAll.establishes_of_subset {ys : List α} {I : S → Prop} (runs : RunsAll f ys s s')
    (inside : ys ⊆ xs) (step : ∀ x ∈ xs, ∀ r r', Ends (f x) r () r' → I r →
      I r' ∧ Q x r' ∧ ∀ y ∈ xs, Q y r → Q y r') (begins : I s) :
    I s' ∧ (∀ y ∈ ys, Q y s') ∧ ∀ y ∈ xs, Q y s → Q y s' := by
  induction runs with
  | nil => exact ⟨begins, by simp, fun _ _ holds => holds⟩
  | @cons y ys s r s' first _ ih =>
    obtain ⟨mem, inside⟩ := cons_subset.mp inside
    obtain ⟨kept, own, others⟩ := step y mem s r first begins
    obtain ⟨ends, all, stays⟩ := ih inside kept
    refine ⟨ends, ?_, fun z inXs holds => stays z inXs (others z inXs holds)⟩
    intro z inYs
    rcases mem_cons.mp inYs with rfl | inYs
    · exact stays z mem own
    · exact all z inYs

lemma RunsAll.establishes {I : S → Prop} (runs : RunsAll f xs s s')
    (step : ∀ x ∈ xs, ∀ r r', Ends (f x) r () r' → I r →
      I r' ∧ Q x r' ∧ ∀ y ∈ xs, Q y r → Q y r') (begins : I s) : I s' ∧ ∀ x ∈ xs, Q x s' := by
  obtain ⟨kept, all, _⟩ := runs.establishes_of_subset (Subset.refl xs) step begins
  exact ⟨kept, all⟩

/-- What every step of a fold keeps of the items that are done holds of all of them at the end. -/
lemma progress_of_foldlM {f : β → α → ExceptT Fault (StateM S) β} {b' : β}
    {I : List α → β → S → Prop} (ends : Ends (xs.foldlM f b) s b' s')
    (keeps : ∀ done x rest, xs = done ++ x :: rest → ∀ c c' r r', Ends (f c x) r c' r' →
      I done c r → I (done ++ [x]) c' r') (begins : I [] b s) : I xs b' s' := by
  induction xs generalizing b s I with
  | nil =>
    rw [foldlM_nil, ends_pure] at ends
    obtain ⟨rfl, rfl⟩ := ends
    exact begins
  | cons x xs ih =>
    rw [foldlM_cons] at ends
    obtain ⟨c, r, step, ends⟩ := ends_bind.mp ends
    refine ih (I := fun done => I (x :: done)) ends ?_ (keeps [] x xs rfl b c s r step begins)
    intro done y rest split
    exact keeps (x :: done) y rest (by rw [split, cons_append])

/-- What every step of a fold keeps is kept by the fold. -/
lemma invariant_of_foldlM {f : β → α → ExceptT Fault (StateM S) β} {b' : β} {I : β → S → Prop}
    (ends : Ends (xs.foldlM f b) s b' s')
    (keeps : ∀ x ∈ xs, ∀ c c' r r', Ends (f c x) r c' r' → I c r → I c' r') (begins : I b s) :
    I b' s' :=
  progress_of_foldlM (I := fun _ => I) ends
    (fun done x rest split => keeps x (by simp [split])) begins

/-! ### States before and after -/

/-- A computation that relates the states before and after it when it returns. -/
def Relates (R : S → S → Prop) (x : ExceptT Fault (StateM S) α) : Prop :=
  ∀ s a s', Ends x s a s' → R s s'

section Relates

variable {R : S → S → Prop} [IsPreorder S R]

lemma relates_of_steady (steady : ∀ s a s', Ends x s a s' → s = s') : Relates R x := by
  intro s a s' ends
  obtain rfl := steady s a s' ends
  exact refl_of R s

lemma relates_pure (a : α) : Relates R (pure a) :=
  relates_of_steady fun _ _ _ ends => (ends_pure.mp ends).2

lemma relates_get : Relates R get :=
  relates_of_steady fun _ _ _ ends => (ends_get.mp ends).2

lemma relates_throw (fault : Fault) : Relates R (throw fault : ExceptT Fault (StateM S) α) :=
  relates_of_steady fun _ _ _ ends => (ends_throw ends).elim

lemma relates_lift (x : Except Fault α) : Relates R (liftM x : ExceptT Fault (StateM S) α) :=
  relates_of_steady fun _ _ _ ends => (ends_lift.mp ends).2

lemma Relates.bind {f : α → ExceptT Fault (StateM S) β} (first : Relates R x)
    (second : ∀ a, Relates R (f a)) : Relates R (x >>= f) := by
  intro s b s' ends
  obtain ⟨a, r, begins, continues⟩ := ends_bind.mp ends
  exact trans_of R (first s a r begins) (second a r b s' continues)

lemma relates_forIn (xs : List α) (each : ∀ x ∈ xs, Relates R (f x)) :
    Relates R (forIn xs PUnit.unit fun x _ => do f x; pure (.yield PUnit.unit)) := by
  intro s u s' ends
  -- the invariant compares with the state at the start of the loop
  refine (runsAll_of_forIn ends).invariant (P := R s) ?_ (refl_of R s)
  intro x mem r r' step before
  exact trans_of R before (each x mem r _ r' step)

end Relates

end ModelFormula
