import ModelFormula.Expr

/-!
# Parsing

The grammar has six levels of binary operators, all of which associate to the left:

    group        |
    comparison   ==  !=  <=  <  >=  >
    sum          +  -
    product      *  /
    interaction  :
    power        **

Below them come signs, calls and primary expressions; above them the tilde and the assignment, whose
right sides are sums. Every function returns the tokens that it leaves together with the fact that
they are fewer, so the parser ends by the number of tokens and, among functions that read the same
tokens, by the level.
-/
namespace ModelFormula.Expr

namespace Parse

/-- A tree, and fewer tokens left than the bound. -/
structure Parsed (bound : Nat) where
  expr : Expr
  rest : List Token
  fewer : rest.length < bound

def Parsed.widen {m n : Nat} (p : Parsed m) (le : m ≤ n) : Parsed n :=
  ⟨p.expr, p.rest, Nat.lt_of_lt_of_le p.fewer le⟩

theorem Parsed.tail_fewer {bound : Nat} (p : Parsed bound) {t : Token} {rest : List Token}
    (shape : p.rest = t :: rest) : rest.length + 1 < bound := by
  have bounded := p.fewer
  rw [shape, List.length_cons] at bounded
  exact bounded

/-- The arguments of a call, and fewer tokens left than the bound. -/
structure ParsedArgs (bound : Nat) where
  args : List Expr
  rest : List Token
  fewer : rest.length < bound

inductive Level where
  | group | comparison | sum | product | interaction | power
deriving DecidableEq, Repr

namespace Level

def operators : Level → List Token.Kind
  | group => [.pipe]
  | comparison => [.equalEqual, .bangEqual, .lessEqual, .less, .greaterEqual, .greater]
  | sum => [.minus, .plus]
  | product => [.star, .slash]
  | interaction => [.colon]
  | power => [.starStar]

/-- The level of the operands; those of the tightest level have a sign at most. -/
def tighter? : Level → Option Level
  | group => some comparison
  | comparison => some sum
  | sum => some product
  | product => some interaction
  | interaction => some power
  | power => none

/-- Looser levels rank higher, with room for their operands in between. -/
def rank : Level → Nat
  | group => 14
  | comparison => 12
  | sum => 10
  | product => 8
  | interaction => 6
  | power => 4

theorem rank_tighter {l t : Level} (tighter : l.tighter? = some t) : t.rank < l.rank - 1 := by
  cases l <;> simp [tighter?] at tighter <;> subst tighter <;> decide

theorem three_lt_rank (l : Level) : 3 < l.rank := by cases l <;> decide

@[simp]
theorem rank_lt_fifteen (l : Level) : l.rank < 15 := by cases l <;> decide

end Level

/-- What stands between the brackets of a subset: a string, or a name read as one. -/
def levelOf : Expr → Except Fault Expr
  | literal (.text s) x => .ok (literal (.text s) x)
  | literal _ _ => .error .invalidLevel
  | name n => .ok (literal (.text n.lexeme) none)
  | subset _ _ => .error .nestedLevel
  | e => .ok e

/-- The tree of a name, with or without a level; nothing else can be assigned to. -/
def isVariable : Expr → Bool
  | name _ | subset _ _ => true
  | _ => false

/-- Skips the closing bracket behind a tree. -/
def closing {bound : Nat} (kind : Token.Kind) (place : Closing) (inner : Parsed bound) :
    Except Fault (Parsed bound) :=
  match shape : inner.rest with
  | t :: rest =>
    if t.kind = kind then
      .ok ⟨inner.expr, rest, Nat.lt_of_succ_lt (inner.tail_fewer shape)⟩
    else .error (.missingClosing place)
  | [] => .error (.missingClosing place)

/-- The name that braces stand for. -/
def identityName : Token := ⟨.identifier, "I", none⟩

mutual

def expression (ts : List Token) : Except Fault (Parsed ts.length) := do
  let left ← tilde ts
  match shape : left.rest with
  | t :: rest =>
    if t.kind = .equal then
      have bound := left.tail_fewer shape
      let right ← binary .sum rest
      if isVariable left.expr then
        return ⟨assign left.expr right.expr, right.rest, by have := right.fewer; omega⟩
      else throw .invalidTarget
    else return left
  | [] => return left
termination_by (ts.length, 16)

def tilde (ts : List Token) : Except Fault (Parsed ts.length) := do
  let left ← binary .group ts
  match shape : left.rest with
  | t :: rest =>
    if t.kind = .tilde then
      have bound := left.tail_fewer shape
      let right ← binary .sum rest
      return ⟨.binary left.expr t right.expr, right.rest, by have := right.fewer; omega⟩
    else return left
  | [] => return left
termination_by (ts.length, 15)

def binary (level : Level) (ts : List Token) : Except Fault (Parsed ts.length) := do
  have := level.three_lt_rank
  let left ← operand level ts
  have := left.fewer
  let all ← operations level left.expr left.rest
  return all.widen left.fewer
termination_by (ts.length, level.rank)

def operand (level : Level) (ts : List Token) : Except Fault (Parsed ts.length) :=
  match shape : level.tighter? with
  | some tighter =>
    have := Level.rank_tighter shape
    binary tighter ts
  | none =>
    have := level.three_lt_rank
    unary ts
termination_by (ts.length, level.rank - 1)

def operations (level : Level) (left : Expr) :
    (ts : List Token) → Except Fault (Parsed (ts.length + 1))
  | t :: rest =>
    if level.operators.contains t.kind then do
      let right ← operand level rest
      have := right.fewer
      let all ← operations level (.binary left t right.expr) right.rest
      return all.widen (by simp only [List.length_cons]; omega)
    else return ⟨left, t :: rest, Nat.lt_succ_self _⟩
  | [] => return ⟨left, [], Nat.lt_succ_self _⟩
termination_by ts => (ts.length, 0)

def unary : (ts : List Token) → Except Fault (Parsed ts.length)
  | t :: rest =>
    if t.kind = .plus ∨ t.kind = .minus then do
      let inner ← unary rest
      return ⟨.unary t inner.expr, inner.rest, Nat.lt_succ_of_lt inner.fewer⟩
    else call (t :: rest)
  | [] => call []
termination_by ts => (ts.length, 2)

def call (ts : List Token) : Except Fault (Parsed ts.length) := do
  let callee ← primary ts
  have := callee.fewer
  let all ← calls callee.expr callee.rest
  return all.widen callee.fewer
termination_by (ts.length, 1)

def calls (callee : Expr) : (ts : List Token) → Except Fault (Parsed (ts.length + 1))
  | t :: rest =>
    if t.kind = .leftParen then do
      let args ← arguments rest
      have := args.fewer
      let all ← calls (.call callee args.args) args.rest
      return all.widen (by simp only [List.length_cons]; omega)
    else return ⟨callee, t :: rest, Nat.lt_succ_self _⟩
  | [] => return ⟨callee, [], Nat.lt_succ_self _⟩
termination_by ts => (ts.length, 0)

/-- The arguments behind an opening parenthesis, up to the closing one. -/
def arguments : (ts : List Token) → Except Fault (ParsedArgs ts.length)
  | t :: rest =>
    if t.kind = .rightParen then return ⟨[], rest, Nat.lt_succ_self _⟩
    else someArguments (t :: rest)
  | [] => someArguments []
termination_by ts => (ts.length, 18)

def someArguments (ts : List Token) : Except Fault (ParsedArgs ts.length) := do
  let first ← expression ts
  match shape : first.rest with
  | t :: rest =>
    have bound := first.tail_fewer shape
    if t.kind = .comma then
      let others ← someArguments rest
      return ⟨first.expr :: others.args, others.rest, by have := others.fewer; omega⟩
    else if t.kind = .rightParen then
      return ⟨[first.expr], rest, by omega⟩
    else throw (.missingClosing .arguments)
  | [] => throw (.missingClosing .arguments)
termination_by (ts.length, 17)

def primary : (ts : List Token) → Except Fault (Parsed ts.length)
  | [] => .error (.unexpectedToken "")
  | t :: rest =>
    match t.kind, t.literal with
    | .identifier, _ => named t rest
    | .number, some value => return ⟨literal value none, rest, Nat.lt_succ_self _⟩
    | .string, some value => return ⟨literal value (some t.lexeme), rest, Nat.lt_succ_self _⟩
    | .quotedName, _ => return ⟨quotedName t, rest, Nat.lt_succ_self _⟩
    | .leftParen, _ => do
      let inner ← expression rest
      let after ← closing .rightParen .grouping inner
      return ⟨grouping after.expr, after.rest, Nat.lt_succ_of_lt after.fewer⟩
    | .leftBrace, _ => do
      let inner ← expression rest
      let after ← closing .rightBrace .braces inner
      return ⟨.call (name identityName) [after.expr], after.rest, Nat.lt_succ_of_lt after.fewer⟩
    | _, _ => throw (.unexpectedToken t.lexeme)
termination_by ts => (ts.length, 0)

/-- A name, with the level that may follow it in brackets. -/
def named (t : Token) : (rest : List Token) → Except Fault (Parsed (rest.length + 1))
  | b :: inner =>
    if b.kind = .leftBracket then do
      let found ← primary inner
      let level ← levelOf found.expr
      let after ← closing .rightBracket .level found
      return ⟨subset t level, after.rest, Nat.lt_succ_of_lt (Nat.lt_succ_of_lt after.fewer)⟩
    else return ⟨name t, b :: inner, Nat.lt_succ_self _⟩
  | [] => return ⟨name t, [], Nat.lt_succ_self _⟩
termination_by rest => (rest.length, 1)

end

end Parse

/-- The tree at the front of the tokens and the tokens that it leaves. -/
def parseFront (ts : List Token) : Except Fault (Expr × List Token) :=
  (Parse.expression ts).map fun p => (p.expr, p.rest)

/-- The tree at the front of the tokens. What follows it is not looked at. -/
def parse (ts : List Token) : Except Fault Expr := (parseFront ts).map (·.1)

end ModelFormula.Expr
