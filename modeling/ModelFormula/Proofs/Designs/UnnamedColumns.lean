import ModelFormula.Proofs.Calls.Memories
import ModelFormula.Proofs.Designs.ColumnCount

/-!
# Columns that a model does not name

What is fitted asks a frame for its height and for columns by name, so frames that agree on the
named columns give the same design, or the same fault, and log the same messages.
-/
namespace ModelFormula

open List Component DataSource

/-! ### Frames that answer alike -/

namespace Frame

/-- The columns under a name. -/
def columnsNamed (f : Frame) (n : Literal) : List Column :=
  (f.columns.filter (·.1 == n)).map (·.2)

/-- The frames have as many rows, and the same columns under each of the names. -/
structure AgreeOn (names : List Literal) (f g : Frame) : Prop where
  height : f.height = g.height
  columns : ∀ n ∈ names, f.columnsNamed n = g.columnsNamed n

/-- The frames have as many rows, and the same column under every name. -/
structure Alike (f g : Frame) : Prop where
  height : f.height = g.height
  column? : ∀ n, f.column? n = g.column? n

lemma column?_eq (f : Frame) (n : Literal) : f.column? n = (f.columnsNamed n).head? := by
  simp [column?, columnsNamed, head?_filter]

variable {names : List Literal} {f : Frame}

/-- Under a name that equals one of the given, the restriction has the columns of that one. -/
lemma columnsNamed_restrict (mem : n ∈ names) (eq : n == k) :
    (f.restrict names).columnsNamed k = f.columnsNamed n := by
  rw [columnsNamed, columnsNamed, restrict, filter_filter]
  congr 1
  apply filter_congr
  rintro ⟨name, column⟩ _
  rw [Bool.eq_iff_iff, Bool.and_eq_true]
  constructor
  · rintro ⟨same, _⟩
    rw [Literal.beq_comm] at eq
    exact Literal.beq_trans same eq
  · intro same
    exact ⟨Literal.beq_trans same eq, contains_iff_exists_mem_beq.mpr ⟨n, mem, same⟩⟩

lemma columnsNamed_restrict_other (absent : ∀ n ∈ names, (n == k) = false) :
    (f.restrict names).columnsNamed k = [] := by
  rw [columnsNamed, restrict, filter_filter, map_eq_nil_iff, filter_eq_nil_iff]
  rintro ⟨name, column⟩ _ both
  obtain ⟨same, contained⟩ := (Bool.and_eq_true ..).mp both
  obtain ⟨n, mem, eq⟩ := contains_iff_exists_mem_beq.mp contained
  rw [Literal.beq_comm] at eq
  have found := Literal.beq_trans eq same
  rw [absent n mem] at found
  cases found

lemma mem_restrict :
    (∃ name, (name, c) ∈ (f.restrict names).columns) ↔ ∃ n ∈ names, c ∈ f.columnsNamed n := by
  simp only [restrict, columnsNamed, mem_filter, mem_map, contains_iff_exists_mem_beq]
  constructor
  · rintro ⟨name, own, n, mem, eq⟩
    exact ⟨n, mem, (name, c), ⟨own, eq⟩, rfl⟩
  · rintro ⟨n, mem, ⟨name, _⟩, ⟨own, eq⟩, rfl⟩
    exact ⟨name, own, n, mem, eq⟩

variable {g : Frame}

lemma AgreeOn.incomplete (agree : AgreeOn names f g) :
    (f.restrict names).incomplete = (g.restrict names).incomplete := by
  have columns : ∀ c, (∃ name, (name, c) ∈ (f.restrict names).columns) ↔
      ∃ name, (name, c) ∈ (g.restrict names).columns := by
    intro c
    rw [mem_restrict, mem_restrict]
    constructor
    · rintro ⟨n, mem, own⟩
      exact ⟨n, mem, agree.columns n mem ▸ own⟩
    · rintro ⟨n, mem, own⟩
      exact ⟨n, mem, agree.columns n mem ▸ own⟩
  have height : (f.restrict names).height = (g.restrict names).height := agree.height
  rw [Frame.incomplete, Frame.incomplete, height]
  apply map_congr_left
  intro i _
  rw [Bool.eq_iff_iff, any_eq_true, any_eq_true]
  constructor
  · rintro ⟨⟨name, c⟩, own, missing⟩
    obtain ⟨name', other⟩ := (columns c).mp ⟨name, own⟩
    exact ⟨(name', c), other, missing⟩
  · rintro ⟨⟨name, c⟩, own, missing⟩
    obtain ⟨name', other⟩ := (columns c).mpr ⟨name, own⟩
    exact ⟨(name', c), other, missing⟩

lemma AgreeOn.restrict (agree : AgreeOn names f g) :
    (f.restrict names).Alike (g.restrict names) where
  height := agree.height
  column? k := by
    rw [column?_eq, column?_eq]
    by_cases known : ∃ n ∈ names, (n == k)
    · obtain ⟨n, mem, eq⟩ := known
      rw [columnsNamed_restrict mem eq, columnsNamed_restrict mem eq, agree.columns n mem]
    · have absent : ∀ n ∈ names, (n == k) = false := by simpa using known
      rw [columnsNamed_restrict_other absent, columnsNamed_restrict_other absent]

lemma Alike.select (alike : f.Alike g) (keep : List Bool) :
    (f.select keep).Alike (g.select keep) where
  height := rfl
  column? n := by
    have chosen : ∀ h : Frame, (h.select keep).column? n = (h.column? n).map (·.select keep) := by
      intro h
      simp [Frame.select, Frame.column?, find?_map, Function.comp_def]
    rw [chosen, chosen, alike.column?]

end Frame

/-! ### What is asked of a frame -/

section Questions

variable {f g : Frame} (alike : f.Alike g)
include alike

lemma columnOf_alike : columnOf (.frame f) = columnOf (.frame g) := by
  funext n
  simp only [columnOf, alike.column?]

lemma resolveName_alike : CallExpr.resolveName (.frame f) = CallExpr.resolveName (.frame g) := by
  funext names s
  simp only [CallExpr.resolveName, CallExpr.column, alike.column?]

lemma height_alike : height (.frame f) = height (.frame g) := by
  simp only [height, alike.height]

lemma indexLength_alike : indexLength (.frame f) = indexLength (.frame g) := by
  simp only [indexLength, alike.height]

end Questions

namespace CallExpr

variable {f g : Frame}

lemma eval_alike (alike : f.Alike g) (names : Names) (path : List Nat) (e : CallExpr) :
    eval (.frame f) names path e = eval (.frame g) names path e := by
  induction e generalizing path with
  | unary _ e ih => rw [eval, eval, ih]
  | binary _ l r left right => rw [eval, eval, left, right]
  | name s => rw [eval, eval, resolveName_alike alike]
  | value => rw [eval, eval]
  | call _ args named ih ih' =>
    have list (es : List CallExpr) (same : ∀ e ∈ es, ∀ path,
        eval (.frame f) names path e = eval (.frame g) names path e) (i : Nat) :
        evalList (.frame f) names path i es = evalList (.frame g) names path i es := by
      induction es generalizing i with
      | nil => rw [evalList, evalList]
      | cons e es others =>
        obtain ⟨first, same⟩ := forall_mem_cons.mp same
        rw [evalList, evalList, first, others same]
    rw [eval, eval, list args ih]
    simp only [evalNamed_eq, list (named.map Prod.snd) (forall_mem_map.mpr ih')]

end CallExpr

section Fitting

variable {f g : Frame} (alike : f.Alike g)
include alike

lemma Component.evaluate_alike (e : CallExpr) :
    evaluate e (.frame f) = evaluate e (.frame g) := by
  simp only [evaluate, CallExpr.evaluate, CallExpr.eval_alike alike]

lemma Component.setKind_alike (atom : Atom) (scope : Scope Value) (owner : String) :
    setKind atom (.frame f) scope owner = setKind atom (.frame g) scope owner := by
  cases atom with
  | «variable» name _ => simp only [setKind, setVariableKind, columnOf_alike alike]
  | call e => simp only [setKind, setCallKind, evaluate_alike alike, indexLength_alike alike]
  | stray => rfl

lemma Term.setKind_alike (t : Term) (scope : Scope Value) :
    t.setKind (.frame f) scope = t.setKind (.frame g) scope := by
  simp only [Term.setKind, Component.setKind_alike alike]

lemma Effect.setKind_alike (e : Effect) (scope : Scope Value) :
    e.setKind (.frame f) scope = e.setKind (.frame g) scope := by
  cases e <;> simp only [Effect.setKind, height_alike alike, Term.setKind_alike alike]

lemma GroupTerm.setKind_alike (t : GroupTerm) (scope : Scope Value) :
    t.setKind (.frame f) scope = t.setKind (.frame g) scope := by
  simp only [GroupTerm.setKind, Component.setKind_alike alike, Effect.setKind_alike alike]

lemma Model.fit_alike (m : Model) (scope : Scope Value) :
    m.fit (.frame f) scope = m.fit (.frame g) scope := by
  simp only [Model.fit, Model.setKinds, Model.addExtraTerms, Model.addExtraFor, Model.extraTerm,
    Effect.setKind_alike alike, GroupTerm.setKind_alike alike, Term.setKind_alike alike]

lemma Design.ofModel_alike (m : Model) (scope : Scope Value) :
    Design.ofModel m f scope = Design.ofModel m g scope := by
  simp only [Design.ofModel, ResponseMatrix.evaluate, Model.fit_alike alike, Term.setKind_alike alike]

end Fitting

/-! ### Designs -/

namespace Design

variable {f g : Frame}

/-- What goes on alike with frames that are alike goes on alike with the rows that are left. -/
lemma completeRows_alike {α : Type} {next : Frame → Fit α} (alike : f.Alike g)
    (gaps : f.incomplete = g.incomplete) (action : MissingRows)
    (same : ∀ f' g' : Frame, f'.Alike g' → next f' = next g') :
    (completeRows f action >>= next) = (completeRows g action >>= next) := by
  simp only [completeRows, gaps, alike.height]
  split
  · simp only [pure_bind, same f g alike]
  · cases action with
    | keep => simp only [bind_assoc, pure_bind, same f g alike]
    | drop => simp only [bind_assoc, pure_bind, same _ _ (alike.select _)]
    | error => rfl

/-- The checks of a frame look at its height only. -/
lemma checked_frame (formula : String) (f : Frame) (action : Datum) :
    checked (.text formula) (.frame f) action =
      if formula.isEmpty then .error .formulaEmpty
      else if f.height = 0 then .error .dataEmpty
      else match MissingRows.ofDatum? action with
        | some a => .ok (formula, f, a)
        | none => .error .missingAction := by
  simp only [checked, bind, Except.bind, pure, Except.pure]
  split
  · rfl
  · split
    · rfl
    · cases MissingRows.ofDatum? action <;> rfl

/-- Frames of one height that agree on the columns that the model names have the same rows with
gaps in them, and give the same outcome: the same fault, or the same design with the same response
and the same matrices, and in either case the same store, with all labels and messages. -/
theorem make_unnamedColumns {formula : String} {action : Datum}
    {scope : Except Fault (Scope Value)} {σ : Store} (height : f.height = g.height)
    (agree : ∀ o τ names, Ends (Operand.ofFormula formula) σ o τ → o.varNames = .ok names →
      ∀ n ∈ names, f.columnsNamed n = g.columnsNamed n) :
    (∀ o τ names, Ends (Operand.ofFormula formula) σ o τ → o.varNames = .ok names →
      (f.restrict names).incomplete = (g.restrict names).incomplete) ∧
    outcome (make (.text formula) (.frame f) action scope) σ =
      outcome (make (.text formula) (.frame g) action scope) σ := by
  constructor
  · intro o τ names ends named
    exact Frame.AgreeOn.incomplete ⟨height, agree o τ names ends named⟩
  · rw [make, make, checked_frame, checked_frame, height]
    split
    · rfl
    split
    · rfl
    cases MissingRows.ofDatum? action with
    | none => rfl
    | some a =>
      rw [outcome_bind, outcome_bind]
      apply outcome_bind_congr
      intro scope ρ lifted
      obtain ⟨_, rfl⟩ := ends_lift.mp lifted
      apply outcome_bind_congr
      intro o τ ends
      apply outcome_bind_congr
      intro names τ' lifted
      obtain ⟨named, rfl⟩ := ends_lift.mp lifted
      -- from here on the frames are only asked for named columns and for their rows
      have agreed : Frame.AgreeOn names f g := ⟨height, agree o _ names ends named⟩
      rw [completeRows_alike agreed.restrict agreed.incomplete]
      intro f' g' alike
      cases o with
      | model m => exact ofModel_alike alike m scope
      | part | response | foreign => rfl

set_option maxRecDepth 100000 in
/-- A gap in a column that `y ~ x` does not name drops no row, and neither that column nor the order of
the others changes the design. -/
theorem make_unnamedColumns_gap :
    let x : Literal × Column := (.text "x", ⟨.plain .int, [.int 3, .int 5]⟩)
    let y : Literal × Column := (.text "y", ⟨.plain .int, [.int 1, .int 2]⟩)
    let z : Literal × Column := (.text "z", ⟨.plain .object, [.null, .text "p"]⟩)
    ∃ design τ,
      Ends (make (.text "y ~ x") (.frame ⟨2, [y, x, z]⟩) (.text "drop") (.ok ⟨[]⟩)) {} design τ ∧
      Ends (make (.text "y ~ x") (.frame ⟨2, [x, y]⟩) (.text "drop") (.ok ⟨[]⟩)) {} design τ ∧
      (design.common.map fun d => d.slices.map (·.stop)) = some [1, 2] := by
  intro x y z
  let m : Model :=
    { common := [.intercept 1, .term ⟨2, [⟨1, .variable (.text "x") none⟩]⟩]
      response := some ⟨0, [⟨0, .variable (.text "y") none⟩]⟩ }
  let σ : Store := { components := #[{ isResponse := true }, {}], parts := #[{}, {}, {}] }
  have resolved : Ends (Operand.ofFormula "y ~ x") {} (.model m) σ := by
    unfold Ends
    cbv
  obtain ⟨design, τ, fitted, stops⟩ := @exists_ends Store Design _
    (ofModel m (Frame.restrict ⟨2, [y, x, z]⟩ [.text "x", .text "y"]) ⟨[]⟩) σ
    (fun design => design.common.map fun d => d.slices.map (·.stop)) (some [1, 2])
    (by decide +kernel)
  have made : Ends (make (.text "y ~ x") (.frame ⟨2, [y, x, z]⟩) (.text "drop") (.ok ⟨[]⟩)) {}
      design τ := by
    have complete : (Frame.restrict ⟨2, [y, x, z]⟩ [.text "x", .text "y"]).incomplete =
        [false, false] := by decide +kernel
    refine (ends_make resolved).mpr ⟨⟨by decide +kernel, by decide⟩, .drop, rfl, _, rfl,
      [.text "x", .text "y"], rfl, _, σ, ?_, fitted⟩
    simp [completeRows, complete]
  refine ⟨design, τ, made, ?_, stops⟩
  rw [Ends, ← (@make_unnamedColumns ⟨2, [y, x, z]⟩ ⟨2, [x, y]⟩ _ _ _ _ rfl ?_).2]
  · exact made
  · intro o τ names ends named n member
    obtain ⟨rfl, -⟩ := ends.unique resolved
    have names_eq : names = [.text "x", .text "y"] := (Except.ok.inj named).symm
    rw [names_eq] at member
    simp only [mem_cons, not_mem_nil, or_false] at member
    rcases member with rfl | rfl
    · cbv
    · cbv

end Design

end ModelFormula
