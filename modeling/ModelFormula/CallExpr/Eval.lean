import ModelFormula.Function
import ModelFormula.Scope

/-!
# Evaluation of call expressions

Names are looked up in the data first and in the scope after that. Every call of a transform in an
expression has a memory of its own, known by the path from the root of the expression; it is created
before the arguments are evaluated, and what was remembered before a fault is kept.
-/
namespace ModelFormula

/-- The memories of an expression, by path. -/
abbrev Memories := List (List Nat × Transform.Memory)

namespace Memories

def get? (m : Memories) (path : List Nat) : Option Transform.Memory :=
  (m.find? (·.1 == path)).map (·.2)

def set (m : Memories) (path : List Nat) (memory : Transform.Memory) : Memories :=
  if m.any (·.1 == path) then m.map fun (p, old) => (p, if p == path then memory else old)
  else m ++ [(path, memory)]

end Memories

namespace CallExpr

/-- Evaluation with memories, which are kept on a fault. -/
abbrev Eval := ExceptT Fault (StateM Memories)

/-- A column of the data; only frames and records can be asked for one. -/
def column (source : DataSource) (name : String) : Except Fault (Option Value) :=
  match source with
  | .frame f => .ok ((f.column? (.text name)).map .series)
  | .plain (.record fields) => .ok ((fields.find? (·.1 == name)).map fun (_, d) => .datum d)
  | .plain _ => .error .unsupported

/-- The names that always mean the same. -/
def constant? : String → Option Datum
  | "True" => some (.bool true)
  | "False" => some (.bool false)
  | "None" => some .null
  | _ => none

/-- What names mean outside the data. -/
abbrev Names := String → Except Fault Value

def resolveName (source : DataSource) (names : Names) (name : String) : Except Fault Value := do
  match constant? name with
  | some d => return .datum d
  | none =>
    match ← column source name with
    | some v => return v
    | none => names name

/-- A member of a module. -/
def member (v : Value) (name : String) : Except Fault Value :=
  match v with
  | .module members =>
    match members.find? (·.1 == name) with
    | some (_, m) => .ok m
    | none => .error .noAttribute
  | _ => .error .noAttribute

/-- What is called: a name of the scope, or a member of a module in it at any depth. -/
def resolveCallee (names : Names) (callee : String) : Except Fault Value := do
  match callee.splitOn "." with
  | [] => throw (.unknownName callee)
  | first :: members => members.foldlM member (← names first)

/-- The memory of a call, which is created on the first call of a transform. -/
def memoryFor (path : List Nat) (callee : Value) : Eval (Option Transform.Memory) := do
  match (← get).get? path with
  | some m => return some m
  | none =>
    match callee with
    | .function (.stateful s) =>
      let m := Transform.Memory.initial s
      modify (·.set path m)
      return some m
    | _ => return none

/-- Calls a transform with its memory. -/
def callTransform (path : List Nat) (memory : Transform.Memory) (args : List Value)
    (named : List (String × Value)) : Eval Value := do
  let (result, memory) := (Transform.call memory.transform args named).run.run memory
  modify (·.set path memory)
  ExceptT.mk (pure result)

/-- Calls what is no transform. -/
def callPlain (callee : Value) (args : List Value) (named : List (String × Value)) :
    Except Fault Value :=
  match callee with
  | .function f => f.apply args named
  | .contrastType isSum => do
    match ← Transform.arguments [(if isSum then "omit" else "reference", Transform.absent)]
        args named with
    | [level] =>
      let level := Function.levelArgument level
      return .contrast (if isSum then .sum level else .treatment level)
    | _ => throw .unsupported
  | _ => .error .unsupported

mutual

def eval (source : DataSource) (names : Names) (path : List Nat) :
    CallExpr → Eval Value
  | unary sign e => do
    let x ← eval source names (0 :: path) e
    x.unary sign
  | binary op l r => do
    let x ← eval source names (0 :: path) l
    let y ← eval source names (1 :: path) r
    x.binary op y
  | name s => ExceptT.mk (pure (resolveName source names s))
  | value literal _ => return .datum (.ofLiteral literal)
  | call callee args named => do
    let f ← resolveCallee names callee
    let memory ← memoryFor path f
    let args ← evalList source names path 0 args
    let named ← evalNamed source names path args.length named
    match memory with
    | some memory => callTransform path memory args named
    | none => callPlain f args named

def evalList (source : DataSource) (names : Names) (path : List Nat) (i : Nat) :
    List CallExpr → Eval (List Value)
  | [] => return []
  | e :: es => do
    let v ← eval source names (i :: path) e
    return v :: (← evalList source names path (i + 1) es)

def evalNamed (source : DataSource) (names : Names) (path : List Nat) (i : Nat) :
    List (String × CallExpr) → Eval (List (String × Value))
  | [] => return []
  | (k, e) :: es => do
    let v ← eval source names (i :: path) e
    return (k, v) :: (← evalNamed source names path (i + 1) es)

end

/-- The value of an expression, and its memories afterwards. -/
def evaluate (e : CallExpr) (source : DataSource) (names : Names) (memories : Memories) :
    Except Fault Value × Memories :=
  (eval source names [] e).run.run memories

end CallExpr

end ModelFormula
