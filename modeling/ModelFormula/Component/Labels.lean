import ModelFormula.Component.State

/-!
# Labels of components

One label for each column that a component contributes. A numeric component of one column is
labelled by its name, which may be a number.
-/
namespace ModelFormula.Component

/-- The text of a name with an index or a level behind it. -/
def indexed (name : Literal) (index : String) : Literal :=
  .text (name.plain ++ "[" ++ index ++ "]")

/-- Several columns are numbered. -/
def numericLabels (name : Literal) (value : Block) : List Literal :=
  match value.grid with
  | .matrix m =>
    if 1 < m.width then (List.range m.width).map fun i => indexed name (toString i) else [name]
  | _ => [name]

def labels (c : Component) (st : State) : Except Fault (Option (List Literal)) :=
  let numeric := match st.value with
    | some b => .ok (some (numericLabels c.name b))
    | none => .error .noAttribute
  match st.kind, c.atom with
  | some .numeric, _ | some .offset, .call _ => numeric
  | some .categoric, _ =>
    match st.contrast with
    | some m => .ok (some (m.labels.map (indexed c.name)))
    | none => .error .noAttribute
  | _, _ => .ok none

end ModelFormula.Component
