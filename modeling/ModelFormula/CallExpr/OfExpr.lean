import ModelFormula.CallExpr
import ModelFormula.Expr.Names

/-!
# Call expressions of a formula

The tree of a formula read as a call expression. Only arithmetic, comparisons and calls can be, and
a keyword only in the arguments of a call.
-/
namespace ModelFormula.CallExpr

def operator? : Token.Kind → Option Operator
  | .plus => some .add
  | .minus => some .sub
  | .starStar => some .pow
  | .star => some .mul
  | .slash => some .div
  | .equalEqual => some .eq
  | .bangEqual => some .ne
  | .lessEqual => some .le
  | .less => some .lt
  | .greaterEqual => some .ge
  | .greater => some .gt
  | _ => none

def sign? : Token.Kind → Option Sign
  | .plus => some .plus
  | .minus => some .minus
  | _ => none

/-- The lexeme of a name; nothing else can be called or take a value. -/
def nameOf : Expr → Except Fault String
  | .name t | .subset t _ => .ok t.lexeme
  | _ => .error .noAttribute

/-- A repeated keyword keeps its first place and takes its last value. -/
def setNamed (k : String) (e : CallExpr) :
    List (String × CallExpr) → List (String × CallExpr)
  | [] => [(k, e)]
  | (k', e') :: rest => if k == k' then (k, e) :: rest else (k', e') :: setNamed k e rest

mutual

def ofExpr : Expr → Except Fault CallExpr
  | .grouping e => ofExpr e
  | .binary l o r =>
    match operator? o.kind with
    | some op => do
      let left ← ofExpr l
      return binary op left (← ofExpr r)
    | none => .error (.uncallableBinary o.kind.name)
  | .unary o e =>
    match sign? o.kind with
    | some sign => do return unary sign (← ofExpr e)
    | none => .error (.uncallableUnary o.kind.name)
  | .call f args => do
    let (plain, named) ← ofArguments args [] []
    return call (← nameOf f) plain named
  | .name t | .subset t _ => .ok (name t.lexeme)
  | .quotedName t => .ok (name (Expr.unquote t.lexeme))
  | .literal v x => .ok (value v x)
  | .assign _ _ => .error .noAttribute

/-- Arguments by place and by keyword, in order. -/
def ofArguments : List Expr → List CallExpr → List (String × CallExpr) →
    Except Fault (List CallExpr × List (String × CallExpr))
  | [], plain, named => .ok (plain, named)
  | .assign target v :: rest, plain, named => do
    let e ← ofExpr v
    ofArguments rest plain (setNamed (← nameOf target) e named)
  | arg :: rest, plain, named => do
    let e ← ofExpr arg
    ofArguments rest (plain ++ [e]) named

end

end ModelFormula.CallExpr
