import ModelFormula.Proofs.Designs.ModelColumns

/-!
# The columns of a design of factors

The matrix of the common effects has at most the columns of the subspaces of its design. It has
exactly as many if and only if the second choice of codings gives every term a single coding and no
term is displaced by another of the same name.
-/
namespace ModelFormula

open List Coding Model

/-! ### Frames -/

namespace Frame

/-- Every column has a cell for every row. -/
def Rectangular (f : Frame) : Prop := ∀ p ∈ f.columns, p.2.cells.length = f.height

instance (f : Frame) : Decidable f.Rectangular := inferInstanceAs (Decidable (∀ p ∈ f.columns, _))

/-- The levels that a column shows. -/
def levels (f : Frame) (n : String) : List Datum :=
  match (f.column? (.text n)).map fun c => Levels.ofValue (.series c) with
  | some (.ok ls) => ls
  | _ => []

/-- The column holds texts or categories and shows at least two levels. -/
def ShowsFactor (f : Frame) (n : String) : Prop :=
  (f.column? (.text n)).any (fun c => c.isString || c.isCategory) = true ∧ 2 ≤ (f.levels n).length

instance (f : Frame) (n : String) : Decidable (f.ShowsFactor n) :=
  inferInstanceAs (Decidable (_ ∧ _))

variable {f : Frame} {n : String}

lemma Rectangular.column? (rectangular : f.Rectangular) (found : f.column? name = some c) :
    c.cells.length = f.height := by
  obtain ⟨p, first, rfl⟩ := Option.map_eq_some_iff.mp found
  exact rectangular p (mem_of_find?_eq_some first)

lemma ShowsFactor.hasFactor (shows : f.ShowsFactor n) (rectangular : f.Rectangular) :
    f.HasFactor f.levels n := by
  obtain ⟨factor, several⟩ := shows
  obtain ⟨c, found, factor⟩ := (Option.any_eq_true _ _).mp factor
  refine ⟨⟨c, found, factor, rectangular.column? found, ?_⟩, several⟩
  unfold levels at several ⊢
  rw [found] at several ⊢
  cases known : Levels.ofValue (.series c) with
  | ok ls => simp [known]
  | error fault => simp [known] at several

lemma Rectangular.restrict (rectangular : f.Rectangular) (names : List Literal) :
    (f.restrict names).Rectangular :=
  fun p mem => rectangular p (mem_of_mem_filter mem)

lemma length_select {α : Type} (xs : List α) (keep : List Bool) (same : xs.length = keep.length) :
    ((xs.zip keep).filterMap fun (x, k) => if k then some x else none).length =
      (keep.filter id).length := by
  induction xs generalizing keep with
  | nil => cases keep <;> simp_all
  | cons x xs ih =>
    cases keep with
    | nil => simp at same
    | cons k keep =>
      have others := ih keep (by simpa using same)
      cases k <;> simp [others]

lemma Rectangular.select (rectangular : f.Rectangular) (rows : keep.length = f.height) :
    (f.select keep).Rectangular := by
  intro p mem
  obtain ⟨q, inside, rfl⟩ := mem_map.mp mem
  exact length_select _ _ ((rectangular q inside).trans rows.symm)

end Frame

namespace Design

/-- The rows of a frame that a design uses. -/
def usedRows (frame : Frame) (action : MissingRows) : Frame :=
  if (frame.incomplete.filter id).length = 0 then frame
  else match action with
    | .drop => frame.select (frame.incomplete.map (!·))
    | _ => frame

variable {formula : String} {frame : Frame}

lemma usedRows_rectangular (rectangular : frame.Rectangular) (action : MissingRows) :
    (usedRows frame action).Rectangular := by
  unfold usedRows
  split
  · exact rectangular
  · split
    · exact rectangular.select (by simp [Frame.incomplete])
    · exact rectangular

lemma completeRows_eq (ends : Ends (completeRows frame action) σ used τ) :
    used = usedRows frame action ∧ Extends σ τ := by
  dsimp only [completeRows] at ends
  unfold usedRows
  by_cases none : (frame.incomplete.filter id).length = 0
  · rw [if_pos none] at ends ⊢
    obtain ⟨rfl, rfl⟩ := ends_pure.mp ends
    exact ⟨rfl, Extends.refl σ⟩
  · rw [if_neg none] at ends ⊢
    cases action with
    | keep | drop =>
      obtain ⟨_, warned, rfl⟩ := ends_bind_pure.mp ends
      exact ⟨rfl, extends_warn warned⟩
    | error => exact (ends_throw ends).elim

/-- The part of a frame that the model of a design sees. -/
def usedFrame (m : Model) (frame : Frame) (action : Datum) : Frame :=
  match m.varNames, MissingRows.ofDatum? action with
  | .ok names, some action => usedRows (frame.restrict names) action
  | _, _ => frame

/-- The number of columns of the matrix of the common effects. -/
def commonWidth (d : Design) : Nat := columnsOf d.common

variable {f : Frame} {levels : String → List Datum} {m : Model} {design : Design} {σ τ : Store}

/-- A design is made by fitting the model, evaluating the response and assembling the matrices. -/
lemma ends_ofModel (ends : Ends (ofModel m f scope) σ design τ) :
    ∃ υ, Ends (m.fit (.frame f) scope) σ design.model υ ∧
      (design.model.response = none ∧ τ = υ ∨ ∃ t r, design.model.response = some t ∧
        Ends (ResponseMatrix.evaluate t (.frame f) scope) υ r τ) ∧
      Ends (matrixOf (design.model.common.map .effect)) τ design.common τ ∧
      Ends (matrixOf (design.model.group.map .group)) τ design.group τ := by
  obtain ⟨m', υ, fit, ends⟩ := ends_bind.mp ends
  have finish {response : Option ResponseMatrix} {ρ : Store} (ends : Ends (do
        let common ← matrixOf (m'.common.map .effect)
        let group ← matrixOf (m'.group.map .group)
        return (⟨m', response, common, group⟩ : Design)) ρ design τ) :
      design.model = m' ∧ τ = ρ ∧ Ends (matrixOf (m'.common.map .effect)) τ design.common τ ∧
        Ends (matrixOf (m'.group.map .group)) τ design.group τ := by
    obtain ⟨common, _, first, ends⟩ := ends_bind.mp ends
    obtain ⟨group, _, second, last⟩ := ends_bind.mp ends
    obtain ⟨rfl, _⟩ := ends_matrixOf first
    obtain ⟨rfl, _⟩ := ends_matrixOf second
    obtain ⟨rfl, rfl⟩ := ends_pure.mp last
    exact ⟨rfl, rfl, first, second⟩
  cases given : m'.response with
  | none =>
    simp only [given] at ends
    obtain ⟨_, _, got, ends⟩ := ends_bind.mp ends
    obtain ⟨_, rfl⟩ := ends_pure.mp got
    obtain ⟨rfl, rfl, matrices⟩ := finish ends
    exact ⟨_, fit, .inl ⟨given, rfl⟩, matrices⟩
  | some t =>
    simp only [given] at ends
    obtain ⟨r, _, evaluated, ends⟩ := ends_bind.mp ends
    obtain ⟨_, _, got, ends⟩ := ends_bind.mp ends
    obtain ⟨_, rfl⟩ := ends_pure.mp got
    obtain ⟨rfl, rfl, matrices⟩ := finish ends
    exact ⟨υ, fit, .inr ⟨t, r, given, evaluated⟩, matrices⟩

/-- A design has the columns of the first codings of its terms. -/
lemma ofModel_columns (factors : m.OfFactors f levels)
    (separate : (Operand.model m).pool.Separate {} σ) (ends : Ends (ofModel m f scope) σ design τ) :
    ∃ first picked υ, Model.Fitted f levels m design.model first picked υ ∧
      design.commonWidth = groupColumns (fun n => (levels n).length)
        (firstCoding picked) design.model.factorGroup := by
  obtain ⟨υ, fit, responded, assembled, _⟩ := ends_ofModel ends
  obtain ⟨first, picked, fitted⟩ := exists_fitted factors separate fit
  obtain ⟨_, _, _, _, enlarged, _⟩ := fitted.adds
  refine ⟨first, picked, υ, fitted, ?_⟩
  -- the response changes a part of its own, so the data of the effects are still there
  have kept : ∀ e ∈ design.model.common, e.data? τ = e.data? υ := by
    intro e mem
    rcases responded with ⟨_, rfl⟩ | ⟨t, r, given, evaluated⟩
    · rfl
    · have changes := ResponseMatrix.confined_evaluate t (.frame f) scope _ _ _ evaluated
      refine Effect.data?_of_eq fun s slot => changes.part s fun eq => ?_
      exact not_otherPart enlarged.prepared.separate mem slot (.inr (by simp [given, eq]))
  rw [commonWidth, matrixOf_columns (fun e mem => by
    rw [kept e mem]
    exact fitted.data e mem) assembled, groupColumns, factorGroup, map_map]
  refine congrArg List.sum (map_congr_left fun p mem => ?_)
  rw [(mem_common_of_byName mem).2]
  rfl

/-- The columns of a fitted model are at most those of the subspaces of its terms. -/
lemma groupColumns_le (factors : m.OfFactors f levels)
    (fitted : Model.Fitted f levels m m' first picked τ) :
    groupColumns (fun n => (levels n).length) (firstCoding picked) m'.factorGroup ≤
        ∑ S ∈ subspaces (m.common.map Effect.factors), columns (fun n => (levels n).length) S ∧
      (groupColumns (fun n => (levels n).length) (firstCoding picked) m'.factorGroup =
          ∑ S ∈ subspaces (m.common.map Effect.factors), columns (fun n => (levels n).length) S ↔
        (∀ t ∈ picked, t.2.length = 1) ∧
          ∀ e ∈ m.common, ∃ t ∈ m'.factorGroup, e.factors ⊆ t.2) := by
  obtain ⟨_, _, _, _, enlarged, _⟩ := fitted.adds
  -- a name stands for the factors of the last effect that has it
  have isGroup : ∀ t ∈ m'.factorGroup, ∃ e ∈ m'.common, e.factors = t.2 := by
    intro t mem
    obtain ⟨p, inside, rfl⟩ := mem_map.mp mem
    exact ⟨p.2, (mem_common_of_byName inside).1, rfl⟩
  have several : ∀ e ∈ m.common, ∀ n ∈ e.factors, 2 ≤ (levels n).length := by
    intro e mem n inside
    obtain ⟨c, held, rfl⟩ := mem_map.mp inside
    exact (factors.factors e mem c held).name.2.several
  have within : ∀ t ∈ m'.factorGroup, ∃ e ∈ m.common, t.2 ⊆ e.factors := by
    intro t mem
    obtain ⟨d, inside, eq⟩ := isGroup t mem
    rw [← eq]
    exact enlarged.inside d inside
  obtain ⟨upper, exact⟩ := fitted.recoded.groupColumns_le (fun n => (levels n).length) fitted.heads
    (fun t mem => by
      obtain ⟨d, inside, eq⟩ := isGroup t mem
      rw [← eq]
      exact enlarged.prepared.distinct d inside)
    (fun t mem n inside => by
      obtain ⟨e, among, subset⟩ := within t mem
      exact several e among n (subset inside))
  have all : remaining [] (m'.factorGroup.map (·.2)) = subspaces (m'.factorGroup.map (·.2)) := by
    simp [remaining]
  rw [all] at upper exact
  have inside : ∀ xs ∈ m'.factorGroup.map (·.2), ∃ ys ∈ m.common.map Effect.factors, xs ⊆ ys := by
    simpa only [mem_map, forall_exists_index, and_imp, forall_apply_eq_imp_iff₂,
      exists_exists_and_eq_and] using within
  have pos : ∀ S ∈ subspaces (m.common.map Effect.factors),
      0 < columns (fun n => (levels n).length) S := by
    intro S mem
    obtain ⟨_, listed, below⟩ := mem_subspaces.mp mem
    obtain ⟨e, among, rfl⟩ := mem_map.mp listed
    exact columns_pos _ (several e among) below
  have subset := subspaces_subset inside
  -- columns can be lost in two places: inside a term, and with a term whose name is taken
  have fewer := Finset.sum_le_sum_of_subset (f := columns fun n => (levels n).length) subset
  have covered : (∀ e ∈ m.common, ∃ t ∈ m'.factorGroup, e.factors ⊆ t.2) ↔
      ∀ ys ∈ m.common.map Effect.factors, ∃ xs ∈ m'.factorGroup.map (·.2), ys ⊆ xs := by
    simp only [mem_map, forall_exists_index, and_imp, forall_apply_eq_imp_iff₂,
      exists_exists_and_eq_and]
  refine ⟨upper.trans fewer, ?_⟩
  rw [covered, ← subspaces_eq_iff inside, ← sum_columns_eq_iff _ subset pos, ← exact]
  omega

lemma checked_eq : checked (.text formula) (.frame frame) action = .ok r ↔
      (formula.isEmpty = false ∧ frame.height ≠ 0) ∧
        ∃ rows, MissingRows.ofDatum? action = some rows ∧ r = (formula, frame, rows) := by
  simp only [checked, bind, Except.bind, pure, Except.pure]
  split
  next empty => simp [empty]
  next given =>
    split
    next none => simp [none]
    next tall =>
      cases MissingRows.ofDatum? action with
      | none => simp
      | some known => simp [given, tall, eq_comm]

/-- The steps of making a design. -/
lemma ends_make (resolved : Ends (Operand.ofFormula formula) {} (.model m) σ) :
    Ends (make (.text formula) (.frame frame) action scope) {} design τ ↔
      (formula.isEmpty = false ∧ frame.height ≠ 0) ∧
        ∃ rows, MissingRows.ofDatum? action = some rows ∧
        ∃ scope', scope = .ok scope' ∧
        ∃ names, m.varNames = .ok names ∧
        ∃ used υ, Ends (completeRows (frame.restrict names) rows) σ used υ ∧
          Ends (ofModel m used scope') υ design τ := by
  constructor
  · intro made
    obtain ⟨r, done, made⟩ := ends_lift_bind.mp made
    obtain ⟨checks, rows, known, rfl⟩ := checked_eq.mp done
    obtain ⟨scope', given, made⟩ := ends_lift_bind.mp made
    obtain ⟨o, ρ, described, made⟩ := ends_bind.mp made
    obtain ⟨rfl, rfl⟩ := described.unique resolved
    obtain ⟨names, named, made⟩ := ends_lift_bind.mp made
    obtain ⟨used, υ, completed, made⟩ := ends_bind.mp made
    exact ⟨checks, rows, known, scope', given, names, named, used, υ, completed, made⟩
  · rintro ⟨checks, rows, known, scope', given, names, named, used, υ, completed, made⟩
    refine ends_bind.mpr ⟨_, _, ends_lift.mpr ⟨checked_eq.mpr ⟨checks, rows, known, rfl⟩, rfl⟩, ?_⟩
    refine ends_bind.mpr ⟨scope', _, ends_lift.mpr ⟨given, rfl⟩, ?_⟩
    refine ends_bind.mpr ⟨_, _, resolved, ?_⟩
    refine ends_bind.mpr ⟨names, _, ends_lift.mpr ⟨named, rfl⟩, ?_⟩
    exact ends_bind.mpr ⟨used, υ, completed, made⟩

/-- Three factors that show both their levels in two rows. -/
def threeFactors : Frame :=
  let column : Column := ⟨.plain .object, [.text "p", .text "q"]⟩
  ⟨2, [(.text "a", column), (.text "b", column), (.text "c", column)]⟩

/-- An intercept and the interaction of the named variables. -/
def interactionModel (slot : Nat) (names : List String) : Model where
  common := [.intercept 0,
    .term ⟨slot, names.zipIdx.map fun (n, i) => ⟨i, .variable (.text n) none⟩⟩]

/-- The store of a formula, in which nothing is known of its parts. -/
def untouched (components parts : Nat) : Store where
  components := Array.replicate components {}
  parts := Array.replicate parts {}

set_option maxRecDepth 100000 in
lemma ofFormula_pair : Ends (Operand.ofFormula "a:b") {}
    (.model (interactionModel 3 ["a", "b"])) (untouched 2 4) := by
  unfold Ends
  cbv

set_option maxRecDepth 100000 in
lemma ofFormula_triple : Ends (Operand.ofFormula "a:b:c") {}
    (.model (interactionModel 5 ["a", "b", "c"])) (untouched 3 6) := by
  unfold Ends
  cbv

/-- A model of variables of the frame is fitted to the columns that it names. -/
lemma make_threeFactors {β : Type} (g : Design → β) (v : β) (given : formula.isEmpty = false)
    (resolved : Ends (Operand.ofFormula formula) {} (.model m) σ) (named : m.varNames = .ok names)
    (complete : (threeFactors.restrict names).incomplete = [false, false])
    (value : (outcome (ofModel m (threeFactors.restrict names) ⟨[]⟩) σ).1.toOption.map g = some v) :
    ∃ design τ, Ends (make (.text formula) (.frame threeFactors) (.text "drop") (.ok ⟨[]⟩)) {}
      design τ ∧ g design = v := by
  obtain ⟨design, τ, fitted, holds⟩ := exists_ends value
  refine ⟨design, τ, (ends_make resolved).mpr ⟨⟨given, by decide⟩, .drop, rfl, _, rfl, names, named,
    _, σ, ?_, fitted⟩, holds⟩
  simp [completeRows, complete]

end Design

end ModelFormula
