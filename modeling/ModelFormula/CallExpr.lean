import ModelFormula.Datum.Flatten
import ModelFormula.Error
import ModelFormula.HashKey

/-!
# Call expressions

The part of a formula that is a call holds arithmetic instead of the algebra of terms. It is kept as
a tree of its own, which is evaluated when data are at hand.
-/
namespace ModelFormula

namespace CallExpr

inductive Sign where
  | plus | minus
deriving DecidableEq, Repr

def Sign.symbol : Sign → String
  | plus => "+"
  | minus => "-"

inductive Operator where
  | add | sub | mul | div | pow
  | eq | ne | le | lt | ge | gt
deriving DecidableEq, Repr

def Operator.symbol : Operator → String
  | add => "+" | sub => "-" | mul => "*" | div => "/" | pow => "**"
  | eq => "==" | ne => "!=" | le => "<=" | lt => "<" | ge => ">=" | gt => ">"

end CallExpr

inductive CallExpr where
  | unary (sign : CallExpr.Sign) (operand : CallExpr)
  | binary (operator : CallExpr.Operator) (left right : CallExpr)
  | name (s : String)
  /-- A string also keeps its lexeme. -/
  | value (literal : Literal) (lexeme : Option String)
  | call (callee : String) (args : List CallExpr) (named : List (String × CallExpr))
deriving Inhabited, Repr

namespace CallExpr

mutual

/-- The tree as text; operations show no parentheses. -/
def text : CallExpr → String
  | unary sign e => sign.symbol ++ text e
  | binary op l r => text l ++ " " ++ op.symbol ++ " " ++ text r
  | name s => s
  | value literal lexeme => lexeme.getD literal.plain
  | call callee args named =>
    callee ++ "(" ++ ", ".intercalate (texts args ++ namedTexts named) ++ ")"

def texts : List CallExpr → List String
  | [] => []
  | e :: es => text e :: texts es

def namedTexts : List (String × CallExpr) → List String
  | [] => []
  | (k, e) :: es => (k ++ "=" ++ text e) :: namedTexts es

end

mutual

/-- Equality looks from the left tree at the right one. A call on the left can be compared with a
call only, and parts are compared up to the first difference. -/
def same : CallExpr → CallExpr → Except Fault Bool
  | call f args named, call f' args' named' =>
    if f != f' then .ok false
    else if args.length != args'.length then .ok false
    else do
      if !(← sameList args args') then return false
      if named.length != named'.length then return false
      sameNamed named named'
  | call _ _ _, _ => .error .noAttribute
  | unary s e, unary s' e' => if s == s' then same e e' else .ok false
  | binary o l r, binary o' l' r' =>
    if o == o' then do
      if !(← same l l') then return false
      same r r'
    else .ok false
  | unary s e, binary o l _ => if s.symbol == o.symbol then do return (← same e l) && false
      else .ok false
  | binary o l _, unary s e => if s.symbol == o.symbol then do return (← same l e) && false
      else .ok false
  | name s, name s' => .ok (s == s')
  | value v x, value v' x' => .ok (v == v' && x == x')
  | _, _ => .ok false

def sameList : List CallExpr → List CallExpr → Except Fault Bool
  | e :: es, e' :: es' => do
    if !(← same e e') then return false
    sameList es es'
  | _, _ => .ok true

/-- Arguments by keyword are matched by their names. -/
def sameNamed : List (String × CallExpr) → List (String × CallExpr) → Except Fault Bool
  | [], _ => .ok true
  | (k, e) :: es, others =>
    match others.find? (·.1 == k) with
    | some (_, e') => do
      if !(← same e e') then return false
      sameNamed es others
    | none => .ok false

end

mutual

/-- Of arguments by keyword only the names count, and literals cannot be hashed. -/
def key : CallExpr → Except Fault HashKey
  | unary sign e => do return .tuple [.ofText sign.symbol, ← key e]
  | binary op l r => do
    let left ← key l
    return .tuple [.ofText op.symbol, left, ← key r]
  | name s => .ok (.ofText s)
  | value _ _ => .error .unsupported
  | call callee args named => do
    return .tuple (.ofText callee :: (← keys args) ++ named.map fun (k, _) => .ofText k)

def keys : List CallExpr → Except Fault (List HashKey)
  | [] => .ok []
  | e :: es => do
    let first ← key e
    return first :: (← keys es)

end

mutual

/-- The names in a tree, nested as its operations are; a literal contributes an empty name. -/
def names : CallExpr → Datum
  | unary _ e => .list [names e]
  | binary _ l r => .list [names l, names r]
  | name s => .text s
  | value _ _ => .text ""
  | call _ args named => .list (Datum.flatten (namesList args) ++ Datum.flatten (namesNamed named))

def namesList : List CallExpr → List Datum
  | [] => []
  | e :: es => names e :: namesList es

def namesNamed : List (String × CallExpr) → List Datum
  | [] => []
  | (_, e) :: es => names e :: namesNamed es

end

/-- All names in the order in which they occur. A single name is no list of names. -/
def allNames (e : CallExpr) : Except Fault (List String) :=
  match (names e).flattened? with
  | some leaves => .ok (leaves.map Datum.plain)
  | none => .error .noAttribute

end CallExpr

end ModelFormula
