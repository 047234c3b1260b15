import ModelFormula.Coding
import ModelFormula.Model

/-!
# Codings of a model

The common terms of a model are coded in groups. The first group has the intercept and all terms
that are categoric throughout. Interactions with numeric components are grouped by the set of those
components, together with the term of exactly these components if the model has one.
-/
namespace ModelFormula.Model

/-- What a group has to know of a common term. -/
inductive TermShape where
  | single (kind : Option Kind)
  | interaction (kinds : List (Literal × Option Kind))
deriving Inhabited

/-- Binds a key anew where it stands, or at the end. -/
def assign {κ α : Type} [BEq κ] (key : κ) (value : α) : List (κ × α) → List (κ × α)
  | [] => [(key, value)]
  | (k, v) :: rest => if k == key then (k, value) :: rest else (k, v) :: assign key value rest

def kindOf (σ : Store) : Effect → Option Kind
  | .intercept _ | .negated => some .intercept
  | .term t => (σ.part t.slot).kind

def shape (σ : Store) (e : Effect) : TermShape :=
  match e, kindOf σ e with
  | .term t, some .interaction =>
    .interaction (t.components.foldl (fun acc c => assign c.name (σ.component c.slot).kind acc) [])
  | _, kind => .single kind

/-- The shapes of the common terms, by name. -/
def shapes (σ : Store) (m : Model) : List (String × TermShape) :=
  m.common.foldl (fun acc e => assign e.name (shape σ e) acc) []

/-- Terms with the factors that have to be coded. -/
abbrev CodingGroup := List (String × List Literal)

/-- The names of the components of one kind. -/
def namesOfKind (kind : Kind) (kinds : List (Literal × Option Kind)) : List Literal :=
  (kinds.filter (·.2 == some kind)).map (·.1)

def categoricGroup (shapes : List (String × TermShape)) : CodingGroup :=
  shapes.filterMap fun (name, s) =>
    match s with
    | .single (some .categoric) => some (name, [.text name])
    | .single (some .intercept) => some (name, [])
    | .single _ => none
    | .interaction kinds =>
      if kinds.all (·.2 == some .categoric) then some (name, kinds.map (·.1)) else none

/-- Lists with the same items, in whatever order. -/
def sameNames (xs ys : List Literal) : Bool :=
  xs.all (fun x => ys.any (· == x)) && ys.all fun y => xs.any (· == y)

/-- The name of the term of some components, which must be named by texts. -/
def jointName (names : List Literal) : Except Fault String := do
  let texts ← names.mapM fun
    | .text s => .ok s
    | _ => .error .unsupported
  return ":".intercalate texts

/-- Changes the group of the given numeric components, which is opened if there is none. -/
def updateGroup (numeric : List Literal) (change : CodingGroup → CodingGroup) :
    List (List Literal × CodingGroup) → List (List Literal × CodingGroup)
  | [] => [(numeric, change [])]
  | (names, group) :: rest =>
    if sameNames names numeric then (names, change group) :: rest
    else (names, group) :: updateGroup numeric change rest

/-- The groups of the interactions with numeric components. -/
def numericGroups (shapes : List (String × TermShape)) :
    Except Fault (List (List Literal × CodingGroup)) :=
  shapes.foldlM (fun groups (name, s) => do
    match s with
    | .single _ => return groups
    | .interaction kinds =>
      let categoric := namesOfKind .categoric kinds
      let numeric := namesOfKind .numeric kinds
      if categoric.isEmpty || numeric.isEmpty then return groups
      let part ← jointName numeric
      let change (group : CodingGroup) : CodingGroup :=
        let group := if shapes.any (·.1 == part) then assign part [] group else group
        assign name categoric group
      return updateGroup numeric change groups) []

def codingGroups (σ : Store) (m : Model) : Except Fault (List CodingGroup) := do
  let shapes := shapes σ m
  return categoricGroup shapes :: (← numericGroups shapes).map (·.2)

/-- The codings of the terms, by name. -/
abbrev Codings := List (String × List (Coding.Flags Literal))

/-- The codings of all groups; where groups share a name the later one decides. -/
def codings (σ : Store) (m : Model) : Except Fault Codings := do
  let picked ← (← codingGroups σ m).mapM Coding.pick
  return picked.flatten.foldl (fun acc (name, cs) => assign name cs acc) []

def codingsOf? (codings : Codings) (name : String) : Option (List (Coding.Flags Literal)) :=
  (codings.find? (·.1 == name)).map (·.2)

end ModelFormula.Model
