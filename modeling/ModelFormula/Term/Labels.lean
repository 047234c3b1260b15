import ModelFormula.Component.Labels
import ModelFormula.Term.Fit

/-!
# Labels and levels of terms

The columns of an interaction are labelled by the labels of its components, and those of a
group-specific term by an expression and a group. Labels are read off the present state of the
components, which terms may share.
-/
namespace ModelFormula

namespace Term

/-- Labels of an interaction are texts; what has none, or is named by a number, cannot be joined. -/
def interactionLabels (labels : List (Option (List Literal))) : Except Fault (List String) := do
  let lists ← labels.mapM fun
    | some ls => .ok ls
    | none => .error .unsupported
  (choices lists).mapM fun parts => do
    let texts ← parts.mapM fun
      | .text s => .ok s
      | _ => .error .unsupported
    return ":".intercalate texts

def labels (t : Term) (σ : Store) : Except Fault (Option (List Literal)) := do
  match (σ.part t.slot).kind with
  | none => return none
  | some .interaction =>
    let labels ← t.components.mapM fun c => c.labels (σ.component c.slot)
    return some ((← interactionLabels labels).map .text)
  | some _ =>
    match t.components with
    | [] => throw .outOfRange
    | c :: _ => c.labels (σ.component c.slot)

/-- The levels that a component contributes to an interaction. -/
def componentLevels (st : Component.State) : Except Fault (Option (List String)) :=
  match st.contrast, st.value with
  | some m, _ => .ok (some m.labels)
  | none, some ⟨_, .matrix m⟩ =>
    .ok (if 1 < m.width then some ((List.range m.width).map toString) else none)
  | none, some _ => .ok none
  | none, none => .error .noAttribute

/-- The levels of a term that are coded by its columns. -/
def levels (t : Term) (σ : Store) : Except Fault (Option (List String)) := do
  match (σ.part t.slot).kind with
  | none | some .numeric | some .proportion => return none
  | some .interaction =>
    let lists ← t.components.mapM fun c => componentLevels (σ.component c.slot)
    match lists.filterMap id with
    | [] => return some []
    | lists => return some ((choices lists).map fun parts => ", ".intercalate parts)
  | some _ =>
    match t.components with
    | [] => throw .outOfRange
    | c :: _ =>
      if c.reference?.isSome then return none
      match (σ.component c.slot).contrast with
      | some m => return some m.labels
      | none => throw .noAttribute

/-- Whether all components span the intercept. -/
def spansIntercept (t : Term) (σ : Store) : Bool :=
  t.components.all fun c => (σ.component c.slot).spansIntercept.truthy

end Term

namespace Effect

def labels (e : Effect) (σ : Store) : Except Fault (Option (List Literal)) :=
  match e with
  | .intercept _ => .ok (some [.text "Intercept"])
  | .negated => .error .noAttribute
  | .term t => t.labels σ

end Effect

namespace GroupTerm

/-- An expression within a group. -/
def label (group : Literal) (level : Literal) : String := level.plain ++ "|" ++ group.plain

/-- For every group the labels of the expression; an intercept is labelled by one. -/
def labels (g : GroupTerm) (σ : Store) : Except Fault (List String) := do
  let inner ← if (σ.part g.slot).kind = some .intercept then pure (some [.text "1"])
    else g.expr.labels σ
  match ← g.factor.labels σ with
  | none => throw .unsupported
  | some groups =>
    match inner with
    | some levels => return groups.flatMap fun group => levels.map (label group)
    | none => if groups.isEmpty then return [] else throw .unsupported

end GroupTerm

end ModelFormula
