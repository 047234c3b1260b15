import ModelFormula.CallExpr.OfExpr
import ModelFormula.Model.Algebra

/-!
# Models of formulas

The tree of a formula read by the algebra of terms: names and calls are terms, `1` is the intercept
and `0` the negated one, and the tilde separates the response from the effects.
-/
namespace ModelFormula.Operand

def operator? : Token.Kind → Option Operator
  | .plus => some .add
  | .minus => some .sub
  | .starStar => some .power
  | .colon => some .interact
  | .star => some .mul
  | .slash => some .nest
  | .pipe => some .bar
  | _ => none

/-- The term of a single new component. -/
def ofAtom (atom : Atom) : Fit Operand := do
  return ofTerm (← Fit.newTerm [← Fit.newComponent atom])

/-- The level in the brackets of a subset; only literals have a value. -/
def levelValue : Expr → Except Fault Literal
  | .literal v _ => .ok v
  | _ => .error .noAttribute

/-- Negation swaps the two intercepts. -/
def negate (o : Operand) : Fit Operand := do
  match o with
  | .part (.effect (.intercept _)) => return ofEffect .negated
  | .part (.effect .negated) => return ofEffect (← Fit.newIntercept)
  | _ => throw .negatedTerm

def ofExpr : Expr → Fit Operand
  | .grouping e => ofExpr e
  | .binary l o r => do
    if o.kind = .tilde then
      let response ← (← ofExpr l).asResponse
      addToResponse response (← ofExpr r)
    else match operator? o.kind with
      | some op =>
        let left ← ofExpr l
        operate op left (← ofExpr r)
      | none => throw (.unresolvedBinary o.kind.name)
  | .unary o e => do
    match o.kind with
    | .plus => ofExpr e
    | .minus => negate (← ofExpr e)
    | kind => throw (.unresolvedUnary kind.name)
  | .call f args => do ofAtom (.call (← CallExpr.ofExpr (.call f args)))
  | .name t => ofAtom (.variable (.text t.lexeme) none)
  | .subset t level => do ofAtom (.variable (.text t.lexeme) (some (← levelValue level)))
  | .quotedName t => ofAtom (.variable (.text (Expr.unquote t.lexeme)) none)
  | .literal v _ =>
    if v == .int 0 then return ofEffect .negated
    else if v == .int 1 then return ofEffect (← Fit.newIntercept)
    else ofAtom (.variable v none)
  | .assign _ _ => throw .noAttribute

end ModelFormula.Operand
