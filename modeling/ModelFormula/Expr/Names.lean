import ModelFormula.Datum.Flatten
import ModelFormula.Expr

/-!
# Names in an expression

The names of an expression, nested as its operations are. A literal contributes an empty name. An
argument given by keyword contributes its names as one text.
-/
namespace ModelFormula.Expr

/-- The name between back quotes. -/
def unquote (lexeme : String) : String :=
  String.ofList (lexeme.toList.drop 1).dropLast

mutual

def names : Expr → Datum
  | assign _ value => .text (names value).plain
  | grouping e => names e
  | binary l _ r => .list [names l, names r]
  | unary _ e => names e
  | call _ args => .list (Datum.flatten (namesList args))
  | name t => .text t.lexeme
  | subset t _ => .text t.lexeme
  | quotedName t => .text (unquote t.lexeme)
  | literal _ _ => .text ""

def namesList : List Expr → List Datum
  | [] => []
  | e :: es => names e :: namesList es

end

/-- All names in the order in which they occur. A single name is no list of names. -/
def allNames (e : Expr) : Except Fault (List String) :=
  match (names e).flattened? with
  | some leaves => .ok (leaves.map Datum.plain)
  | none => .error .noAttribute

end ModelFormula.Expr
