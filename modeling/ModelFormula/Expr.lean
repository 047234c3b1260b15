import ModelFormula.Datum
import ModelFormula.Error
import ModelFormula.Text.Lines
import ModelFormula.Token

/-!
# Expressions

The tree of a formula. It keeps the tokens of names and operators, so two trees are equal if they
have the same shape and the same tokens.
-/
namespace ModelFormula

inductive Expr where
  | assign (target value : Expr)
  | grouping (inner : Expr)
  | binary (left : Expr) (operator : Token) (right : Expr)
  | unary (operator : Token) (operand : Expr)
  | call (callee : Expr) (args : List Expr)
  | name (token : Token)
  /-- One level of a variable, as in `x[low]`. -/
  | subset (name : Token) (level : Expr)
  | quotedName (name : Token)
  /-- A string also keeps its lexeme. -/
  | literal (value : Literal) (lexeme : Option String)
deriving Inhabited

namespace Expr

mutual

def same : Expr → Expr → Bool
  | assign t v, assign t' v' => same t t' && same v v'
  | grouping e, grouping e' => same e e'
  | binary l o r, binary l' o' r' => same l l' && o.same o' && same r r'
  | unary o e, unary o' e' => o.same o' && same e e'
  | call f args, call f' args' => same f f' && sameList args args'
  | name n, name n' => n.same n'
  | subset n l, subset n' l' => n.same n' && same l l'
  | quotedName n, quotedName n' => n.same n'
  | literal v x, literal v' x' => v == v' && x == x'
  | _, _ => false

def sameList : List Expr → List Expr → Bool
  | [], [] => true
  | e :: es, e' :: es' => same e e' && sameList es es'
  | _, _ => false

end

/-- The text of a level; only literals have one. -/
def levelText : Expr → Except Fault String
  | literal v _ => .ok v.plain
  | _ => .error .noAttribute

mutual

/-- The tree as text, one node a line and parts indented. -/
def text : Expr → Except Fault String
  | assign t v => do
    let target ← text t
    return "Assign(name=" ++ target ++ ", value=" ++ Text.indentRest (← text v) ++ "\n)"
  | grouping e => do
    return "Grouping(\n  " ++ Text.indentRest (← text e) ++ "\n)"
  | binary l o r => do
    let left ← text l
    let right ← text r
    return "Binary(\n  left=" ++ Text.indentRest left ++ ",\n  op=" ++ o.lexeme ++ ",\n  right="
      ++ Text.indentRest right ++ "\n)"
  | unary o e => do
    return "Unary(\n  op=" ++ o.lexeme ++ ", right=" ++ Text.indentRest (← text e) ++ "\n)"
  | call f args => do
    let callee ← text f
    let shown ← texts args
    return "Call(\n  callee=" ++ callee ++ ",\n  args="
      ++ Text.indentRest ("[" ++ ", ".intercalate shown ++ "]") ++ "\n)"
  | name n => return "Variable(name=" ++ n.lexeme ++ ")"
  | subset n l => do
    return "Variable(name=" ++ n.lexeme ++ ",\n  level=" ++ (← levelText l) ++ ")"
  | quotedName n => return "QuotedName(" ++ n.lexeme ++ ")"
  | literal v x =>
    match x with
    | some x => return "Literal(value=" ++ v.plain ++ ", lexeme=" ++ x ++ ")"
    | none => return "Literal(value=" ++ v.plain ++ ")"

def texts : List Expr → Except Fault (List String)
  | [] => return []
  | e :: es => do
    let first ← text e
    return first :: (← texts es)

end

end Expr

end ModelFormula
