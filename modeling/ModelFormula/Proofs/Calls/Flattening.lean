import ModelFormula.CallExpr

/-!
# Flattening

The loop that flattens a nested list takes one value from the front in each pass, and puts the items
of a list back in its place. The pending values may become more, but a pass leaves one value less at
all depths together, so their number is the number of passes.
-/
namespace ModelFormula

open Datum

namespace Datum

def IsList (d : Datum) : Prop := ∃ items, d = list items

mutual

/-- What is no list, from left to right. -/
def leaves : Datum → List Datum
  | list items => leavesOfAll items
  | d => [d]

def leavesOfAll : List Datum → List Datum
  | [] => []
  | d :: ds => leaves d ++ leavesOfAll ds

end

mutual

/-- How many values there are at all depths, the lists among them included. -/
def weight : Datum → Nat
  | list items => weightOfAll items + 1
  | _ => 1

def weightOfAll : List Datum → Nat
  | [] => 0
  | d :: ds => weight d + weightOfAll ds

end

/-- The loop works off the pending values in some number of passes and hands out the others. -/
inductive Works : List Datum → Nat → List Datum → Prop
  | done : Works [] 0 []
  | enter {items rest out : List Datum} {n : Nat} (more : Works (items ++ rest) n out) :
      Works (list items :: rest) (n + 1) out
  | yield {d : Datum} {rest out : List Datum} {n : Nat} (leaf : ¬ d.IsList)
      (more : Works rest n out) : Works (d :: rest) (n + 1) (d :: out)

variable {d : Datum} {out : List Datum} {n : Nat}

theorem leaves_of_leaf (leaf : ¬ d.IsList) : leaves d = [d] := by
  cases d with
  | list items => exact absurd ⟨items, rfl⟩ leaf
  | _ => simp only [leaves]

theorem weight_of_leaf (leaf : ¬ d.IsList) : weight d = 1 := by
  cases d with
  | list items => exact absurd ⟨items, rfl⟩ leaf
  | _ => simp only [weight]

theorem leavesOfAll_append (ds es : List Datum) :
    leavesOfAll (ds ++ es) = leavesOfAll ds ++ leavesOfAll es := by
  induction ds with
  | nil => simp [leavesOfAll]
  | cons d ds ih => simp [leavesOfAll, ih]

theorem weightOfAll_append (ds es : List Datum) :
    weightOfAll (ds ++ es) = weightOfAll ds + weightOfAll es := by
  induction ds with
  | nil => simp [weightOfAll]
  | cons d ds ih => simp [weightOfAll, ih, Nat.add_assoc]

theorem flatten_of_leaf (leaf : ¬ d.IsList) (rest : List Datum) :
    flatten (d :: rest) = d :: flatten rest := by
  rw [flatten]
  exact fun items own => leaf ⟨items, own⟩

theorem flatten_eq_leavesOfAll (pending : List Datum) : flatten pending = leavesOfAll pending := by
  fun_induction flatten pending with
  | case1 => simp only [leavesOfAll]
  | case2 items rest ih => rw [ih, leavesOfAll_append, leavesOfAll, leaves]
  | case3 d rest leaf ih =>
    rw [ih, leavesOfAll, leaves_of_leaf fun inner => leaf inner.choose inner.choose_spec]
    rfl

theorem works_flatten (pending : List Datum) :
    Works pending (weightOfAll pending) (flatten pending) := by
  fun_induction flatten pending with
  | case1 =>
    rw [weightOfAll]
    exact .done
  | case2 items rest ih =>
    -- the list is gone after this pass, and all that was in it is still to come
    rw [weightOfAll_append] at ih
    rw [weightOfAll, weight, Nat.add_right_comm]
    exact .enter ih
  | case3 d rest leaf ih =>
    have leaf : ¬ d.IsList := fun inner => leaf inner.choose inner.choose_spec
    rw [weightOfAll, weight_of_leaf leaf, Nat.add_comm]
    exact .yield leaf ih

/-- A run of the loop takes one pass for each value and hands out what flattening gives. -/
theorem Works.unique (run : Works pending n out) :
    n = weightOfAll pending ∧ out = flatten pending := by
  -- the front of the pending values leaves no choice which pass is next
  induction run with
  | done => simp [weightOfAll, flatten]
  | enter _ ih =>
    rw [weightOfAll_append] at ih
    rw [weightOfAll, weight, flatten]
    exact ⟨by omega, ih.2⟩
  | yield leaf _ ih =>
    rw [weightOfAll, weight_of_leaf leaf, flatten_of_leaf leaf, ih.2]
    exact ⟨by omega, rfl⟩

theorem Works.leaf (run : Works pending n out) : ∀ d ∈ out, ¬ d.IsList := by
  induction run with
  | done => simp
  | enter _ ih => exact ih
  | yield leaf _ ih => exact List.forall_mem_cons.mpr ⟨leaf, ih⟩

theorem leavesOfAll_texts (ss : List String) : leavesOfAll (ss.map text) = ss.map text := by
  induction ss with
  | nil => simp [leavesOfAll]
  | cons s ss ih => simp [leavesOfAll, leaves, ih]

end Datum

namespace CallExpr

mutual

/-- The names of a tree in the order in which they are written, an empty one for each literal. -/
def occurring : CallExpr → List String
  | unary _ e => occurring e
  | binary _ l r => occurring l ++ occurring r
  | name s => [s]
  | value _ _ => [""]
  | call _ args named => occurringInAll args ++ occurringInNamed named

def occurringInAll : List CallExpr → List String
  | [] => []
  | e :: es => occurring e ++ occurringInAll es

def occurringInNamed : List (String × CallExpr) → List String
  | [] => []
  | (_, e) :: es => occurring e ++ occurringInNamed es

end

mutual

theorem leaves_names : ∀ e : CallExpr, (names e).leaves = (occurring e).map .text
  | unary _ e => by simp [names, occurring, leaves, leavesOfAll, leaves_names e]
  | binary _ l r => by
    simp [names, occurring, leaves, leavesOfAll, leaves_names l, leaves_names r]
  | name s | value _ _ => by simp [names, occurring, leaves]
  | call _ args named => by
    -- a call flattens its names already, and flattening the texts again changes nothing
    rw [names, occurring, leaves, flatten_eq_leavesOfAll, flatten_eq_leavesOfAll,
      leavesOfAll_namesList args, leavesOfAll_namesNamed named, ← List.map_append,
      leavesOfAll_texts]

theorem leavesOfAll_namesList : ∀ es : List CallExpr,
    leavesOfAll (namesList es) = (occurringInAll es).map .text
  | [] => by simp [namesList, occurringInAll, leavesOfAll]
  | e :: es => by
    simp [namesList, occurringInAll, leavesOfAll, leaves_names e, leavesOfAll_namesList es]

theorem leavesOfAll_namesNamed : ∀ es : List (String × CallExpr),
    leavesOfAll (namesNamed es) = (occurringInNamed es).map .text
  | [] => by simp [namesNamed, occurringInNamed, leavesOfAll]
  | (_, e) :: es => by
    simp [namesNamed, occurringInNamed, leavesOfAll, leaves_names e, leavesOfAll_namesNamed es]

end

/-- The loop ends after as many passes as a nested list has values and hands out its leaves from
left to right, so a call has exactly the names that occur in its arguments. -/
theorem allNames_call :
    (∀ items : List Datum, (Datum.list items).flattened? = some (Datum.list items).leaves ∧
      (∀ d ∈ (Datum.list items).leaves, ¬ d.IsList) ∧
      ∀ n out, Datum.Works items n out ↔
        n = Datum.weightOfAll items ∧ out = (Datum.list items).leaves) ∧
    ∀ (callee : String) (args : List CallExpr) (named : List (String × CallExpr)),
      (call callee args named).allNames = .ok (occurringInAll args ++ occurringInNamed named) := by
  have flat (items : List Datum) : Datum.flatten items = (Datum.list items).leaves := by
    rw [Datum.flatten_eq_leavesOfAll, Datum.leaves]
  refine ⟨fun items => ⟨congrArg some (flat items), ?_, fun n out => ?_⟩, fun callee args named => ?_⟩
  · rw [← flat]
    exact (Datum.works_flatten items).leaf
  · rw [← flat]
    refine ⟨Datum.Works.unique, ?_⟩
    rintro ⟨rfl, rfl⟩
    exact Datum.works_flatten items
  · have shown := leaves_names (call callee args named)
    rw [names, ← flat, occurring] at shown
    rw [allNames, names, Datum.flattened?, shown]
    simp [Function.comp_def, Datum.plain]

end CallExpr

end ModelFormula
