import Mathlib.Tactic.Lemma
import ModelFormula.Expr.Parse

/-!
# The grammar of formulas

The rules by which tokens make up a tree. Repeated operators and calls associate to the left: the
left operand is a phrase of the same symbol, the right one of the next tighter symbol.
-/
namespace ModelFormula.Expr

open Parse

/-- The symbols of the grammar, one for each level and `subsetLevel` for what stands in the brackets
behind a name. -/
inductive Symbol where
  | expression | tilde | level (l : Level) | unary | call | primary | subsetLevel
deriving DecidableEq, Repr

/-- The symbol of the operands of a level. -/
def operandSymbol : Level → Symbol
  | .group => .level .comparison
  | .comparison => .level .sum
  | .sum => .level .product
  | .product => .level .interaction
  | .interaction => .level .power
  | .power => .unary

/-- What follows the first argument of a call: commas, each with the tokens and the tree of an
argument. -/
abbrev Further := List (Token × List Token × Expr)

def Further.tokens (more : Further) : List Token := more.flatMap fun a => a.1 :: a.2.1

def Further.trees (more : Further) : List Expr := more.map fun a => a.2.2

/-- The tokens derive the tree from the symbol. -/
inductive Derives : Symbol → List Token → Expr → Prop
  | assignment {v w : List Token} {t : Token} {target value : Expr}
      (left : Derives .primary v target) (named : isVariable target) (equal : t.kind = .equal)
      (right : Derives (.level .sum) w value) :
      Derives .expression (v ++ t :: w) (.assign target value)
  | expression {w : List Token} {e : Expr} (inner : Derives .tilde w e) : Derives .expression w e
  | response {v w : List Token} {t : Token} {l r : Expr} (left : Derives (.level .group) v l)
      (tilde : t.kind = .tilde) (right : Derives (.level .sum) w r) :
      Derives .tilde (v ++ t :: w) (.binary l t r)
  | tilde {w : List Token} {e : Expr} (inner : Derives (.level .group) w e) : Derives .tilde w e
  | operation {level : Level} {v w : List Token} {t : Token} {l r : Expr}
      (left : Derives (.level level) v l) (operator : t.kind ∈ level.operators)
      (right : Derives (operandSymbol level) w r) :
      Derives (.level level) (v ++ t :: w) (.binary l t r)
  | operand {level : Level} {w : List Token} {e : Expr} (inner : Derives (operandSymbol level) w e) :
      Derives (.level level) w e
  | sign {w : List Token} {t : Token} {e : Expr} (sign : t.kind = .plus ∨ t.kind = .minus)
      (inner : Derives .unary w e) : Derives .unary (t :: w) (.unary t e)
  | unsigned {w : List Token} {e : Expr} (inner : Derives .call w e) : Derives .unary w e
  | emptyCall {v : List Token} {o c : Token} {f : Expr} (callee : Derives .call v f)
      (opening : o.kind = .leftParen) (closing : c.kind = .rightParen) :
      Derives .call (v ++ [o, c]) (.call f [])
  | call {v w : List Token} {o c : Token} {f e : Expr} {more : Further}
      (callee : Derives .call v f) (opening : o.kind = .leftParen) (first : Derives .expression w e)
      (commas : ∀ a ∈ more, a.1.kind = .comma)
      (others : ∀ a ∈ more, Derives .expression a.2.1 a.2.2) (closing : c.kind = .rightParen) :
      Derives .call (v ++ o :: (w ++ more.tokens ++ [c])) (.call f (e :: more.trees))
  | uncalled {w : List Token} {e : Expr} (inner : Derives .primary w e) : Derives .call w e
  | name {t : Token} (kind : t.kind = .identifier) : Derives .primary [t] (.name t)
  | subset {w : List Token} {t o c : Token} {e : Expr} (kind : t.kind = .identifier)
      (opening : o.kind = .leftBracket) (level : Derives .subsetLevel w e)
      (closing : c.kind = .rightBracket) : Derives .primary (t :: o :: (w ++ [c])) (.subset t e)
  | number {t : Token} {value : Literal} (kind : t.kind = .number)
      (stands : t.literal = some value) : Derives .primary [t] (.literal value none)
  | string {t : Token} {value : Literal} (kind : t.kind = .string)
      (stands : t.literal = some value) : Derives .primary [t] (.literal value (some t.lexeme))
  | quotedName {t : Token} (kind : t.kind = .quotedName) : Derives .primary [t] (.quotedName t)
  | grouping {w : List Token} {o c : Token} {e : Expr} (opening : o.kind = .leftParen)
      (inner : Derives .expression w e) (closing : c.kind = .rightParen) :
      Derives .primary (o :: (w ++ [c])) (.grouping e)
  | braces {w : List Token} {o c : Token} {e : Expr} (opening : o.kind = .leftBrace)
      (inner : Derives .expression w e) (closing : c.kind = .rightBrace) :
      Derives .primary (o :: (w ++ [c])) (.call (.name identityName) [e])
  /-- A level is written as a string, which is a literal that stands for a text. -/
  | levelString {w : List Token} {s : String} {lexeme : Option String}
      (string : Derives .primary w (.literal (.text s) lexeme)) :
      Derives .subsetLevel w (.literal (.text s) lexeme)
  | levelName {t : Token} (kind : t.kind = .identifier) :
      Derives .subsetLevel [t] (.literal (.text t.lexeme) none)
  | levelQuotedName {t : Token} (kind : t.kind = .quotedName) :
      Derives .subsetLevel [t] (.quotedName t)
  | levelGrouping {w : List Token} {o c : Token} {e : Expr} (opening : o.kind = .leftParen)
      (inner : Derives .expression w e) (closing : c.kind = .rightParen) :
      Derives .subsetLevel (o :: (w ++ [c])) (.grouping e)
  | levelBraces {w : List Token} {o c : Token} {e : Expr} (opening : o.kind = .leftBrace)
      (inner : Derives .expression w e) (closing : c.kind = .rightBrace) :
      Derives .subsetLevel (o :: (w ++ [c])) (.call (.name identityName) [e])

/-!
### Reading a symbol

One equation for each function of the parser, without the bounds that make it end, says what it
reads first and what it does with the rest. Nothing else about the parser is used later.
-/

/-- A tree and the tokens that it leaves. -/
abbrev Outcome := Except Fault (Expr × List Token)

def front {n : Nat} (parsed : Except Fault (Parsed n)) : Outcome :=
  parsed.map fun p => (p.expr, p.rest)

def frontArgs {n : Nat} (parsed : Except Fault (ParsedArgs n)) :
    Except Fault (List Expr × List Token) :=
  parsed.map fun p => (p.args, p.rest)

/-- The level in the brackets behind a name is a primary expression, read in its own way. -/
def readLevel (ts : List Token) : Outcome :=
  (front (primary ts)).bind fun p => (levelOf p.1).map (·, p.2)

/-- The function of the parser that reads a symbol. -/
def read : Symbol → List Token → Outcome
  | .expression, ts => front (expression ts)
  | .tilde, ts => front (tilde ts)
  | .level l, ts => front (Parse.binary l ts)
  | .unary, ts => front (Parse.unary ts)
  | .call, ts => front (Parse.call ts)
  | .primary, ts => front (primary ts)
  | .subsetLevel, ts => readLevel ts

lemma parseFront_eq_read (ts : List Token) : parseFront ts = read .expression ts := rfl

lemma front_shorter {n : Nat} {parsed : Except Fault (Parsed n)}
    (returned : front parsed = .ok (e, rest)) : rest.length < n := by
  cases parsed with
  | error fault => cases returned
  | ok p =>
    cases returned
    exact p.fewer

lemma frontArgs_shorter {n : Nat} {parsed : Except Fault (ParsedArgs n)} {args : List Expr}
    {rest : List Token} (returned : frontArgs parsed = .ok (args, rest)) : rest.length < n := by
  cases parsed with
  | error fault => cases returned
  | ok p =>
    cases returned
    exact p.fewer

lemma read_shorter {s : Symbol} {ts rest : List Token} {e : Expr}
    (returned : read s ts = .ok (e, rest)) : rest.length < ts.length := by
  cases s with
  | subsetLevel =>
    simp only [read, readLevel] at returned
    cases inner : front (Parse.primary ts) with
    | error fault => simp [inner, Except.bind] at returned
    | ok p =>
      obtain ⟨found, left⟩ := p
      have shorter := front_shorter inner
      cases level : levelOf found with
      | error fault => simp [inner, level, Except.bind, Except.map] at returned
      | ok l =>
        simp only [inner, level, Except.bind, Except.map, Except.ok.injEq, Prod.mk.injEq] at returned
        rw [← returned.2]
        exact shorter
  | expression | tilde | level | unary | call | primary => exact front_shorter returned

/-! ### The equations -/

/-- Only a name can be assigned to. -/
def assignment (target value : Expr) (rest : List Token) : Outcome :=
  if isVariable target then .ok (.assign target value, rest) else .error .invalidTarget

/-- What follows a phrase at the start of an expression: the value that it is assigned, if any. -/
def assignedTo (target : Expr) : List Token → Outcome
  | t :: rest =>
    if t.kind = .equal then
      (read (.level .sum) rest).bind fun q => assignment target q.1 q.2
    else .ok (target, t :: rest)
  | [] => .ok (target, [])

lemma read_expression (ts : List Token) :
    read .expression ts = (read .tilde ts).bind fun p => assignedTo p.1 p.2 := by
  simp only [read]
  rw [Parse.expression]
  cases tilde ts with
  | error fault => rfl
  | ok left =>
    obtain ⟨e, r, fewer⟩ := left
    cases r with
    | nil => rfl
    -- behind the phrase only an equality sign is looked for
    | cons t rest =>
      by_cases eq : t.kind = .equal
      · simp only [assignedTo, read, front, eq, bind, Except.bind, Except.map]
        cases Parse.binary .sum rest with
        | error fault => simp
        | ok right => cases e <;> simp <;> rfl
      · simp [assignedTo, front, eq, bind, Except.bind, Except.map, pure, Except.pure]

/-- What follows the left side of a tilde, if there is one. -/
def respondedTo (left : Expr) : List Token → Outcome
  | t :: rest =>
    if t.kind = .tilde then
      (read (.level .sum) rest).bind fun q => .ok (.binary left t q.1, q.2)
    else .ok (left, t :: rest)
  | [] => .ok (left, [])

lemma read_tilde (ts : List Token) :
    read .tilde ts = (read (.level .group) ts).bind fun p => respondedTo p.1 p.2 := by
  simp only [read]
  rw [Parse.tilde]
  cases Parse.binary .group ts with
  | error fault => rfl
  | ok left =>
    obtain ⟨e, r, fewer⟩ := left
    cases r with
    | nil => rfl
    | cons t rest =>
      by_cases tilde : t.kind = .tilde
      · simp only [respondedTo, read, front, tilde, bind, Except.bind, Except.map]
        cases Parse.binary .sum rest <;> simp
        rfl
      · simp [respondedTo, front, tilde, bind, Except.bind, Except.map, pure, Except.pure]

lemma front_operand (l : Level) (ts : List Token) :
    front (Parse.operand l ts) = read (operandSymbol l) ts := by
  rw [Parse.operand]
  cases l <;> rfl

lemma read_level (l : Level) (ts : List Token) : read (.level l) ts =
    (read (operandSymbol l) ts).bind fun p => front (operations l p.1 p.2) := by
  rw [← front_operand]
  simp only [read]
  rw [Parse.binary]
  cases operand l ts with
  | error fault => rfl
  | ok left =>
    simp only [front, bind, Except.bind, Except.map]
    cases operations l left.expr left.rest <;> rfl

lemma front_operations_cons (l : Level) (left : Expr) (t : Token) (rest : List Token) :
    front (operations l left (t :: rest)) =
      if t.kind ∈ l.operators then
        (read (operandSymbol l) rest).bind fun p => front (operations l (.binary left t p.1) p.2)
      else .ok (left, t :: rest) := by
  rw [← front_operand, operations]
  by_cases operator : t.kind ∈ l.operators
  · simp only [List.contains_iff_mem, operator, if_true, bind, Except.bind]
    cases operand l rest with
    | error fault => rfl
    | ok right =>
      simp only [front, Except.map]
      cases operations l (.binary left t right.expr) right.rest <;> rfl
  · simp [operator, front, Except.map, pure, Except.pure]

lemma front_operations_nil (l : Level) (left : Expr) :
    front (operations l left []) = .ok (left, []) := by
  rw [operations]
  rfl

lemma read_unary_cons (t : Token) (rest : List Token) : read .unary (t :: rest) =
    if t.kind = .plus ∨ t.kind = .minus then
      (read .unary rest).bind fun p => .ok (.unary t p.1, p.2)
    else read .call (t :: rest) := by
  simp only [read]
  rw [Parse.unary]
  by_cases sign : t.kind = .plus ∨ t.kind = .minus
  · simp only [sign, if_true, bind, Except.bind]
    cases Parse.unary rest <;> rfl
  · simp [sign]

lemma read_unary_nil : read .unary [] = read .call [] := by
  simp only [read]
  rw [Parse.unary]

lemma read_call (ts : List Token) : read .call ts =
    (read .primary ts).bind fun p => front (calls p.1 p.2) := by
  simp only [read]
  rw [Parse.call]
  cases primary ts with
  | error fault => rfl
  | ok callee =>
    simp only [front, bind, Except.bind, Except.map]
    cases calls callee.expr callee.rest <;> rfl

lemma front_calls_cons (callee : Expr) (t : Token) (rest : List Token) :
    front (calls callee (t :: rest)) =
      if t.kind = .leftParen then
        (frontArgs (arguments rest)).bind fun a => front (calls (.call callee a.1) a.2)
      else .ok (callee, t :: rest) := by
  rw [calls]
  by_cases opening : t.kind = .leftParen
  · simp only [opening, if_true, bind, Except.bind]
    cases arguments rest with
    | error fault => rfl
    | ok args =>
      simp only [front, frontArgs, Except.map]
      cases calls (.call callee args.args) args.rest <;> rfl
  · simp [opening, front, Except.map, pure, Except.pure]

lemma front_calls_nil (callee : Expr) : front (calls callee []) = .ok (callee, []) := by
  rw [calls]
  rfl

lemma frontArgs_arguments_cons (t : Token) (rest : List Token) :
    frontArgs (arguments (t :: rest)) =
      if t.kind = .rightParen then .ok ([], rest)
      else frontArgs (someArguments (t :: rest)) := by
  rw [arguments]
  by_cases closing : t.kind = .rightParen
  · simp [closing, frontArgs, Except.map, pure, Except.pure]
  · simp [closing]

lemma frontArgs_arguments_nil : frontArgs (arguments []) = frontArgs (someArguments []) := by
  rw [arguments]

/-- What follows an argument: further ones, or the end of the call. -/
def argumentsAfter (first : Expr) : List Token → Except Fault (List Expr × List Token)
  | t :: rest =>
    if t.kind = .comma then
      (frontArgs (someArguments rest)).bind fun a => .ok (first :: a.1, a.2)
    else if t.kind = .rightParen then .ok ([first], rest)
    else .error (.missingClosing .arguments)
  | [] => .error (.missingClosing .arguments)

lemma frontArgs_someArguments (ts : List Token) : frontArgs (Parse.someArguments ts) =
    (read .expression ts).bind fun p => argumentsAfter p.1 p.2 := by
  simp only [read]
  rw [Parse.someArguments]
  cases Parse.expression ts with
  | error fault => rfl
  | ok first =>
    obtain ⟨e, r, fewer⟩ := first
    cases r with
    | nil => rfl
    | cons t rest =>
      by_cases comma : t.kind = .comma
      · simp only [argumentsAfter, front, frontArgs, comma, if_true, bind, Except.bind, Except.map]
        cases Parse.someArguments rest <;> rfl
      · by_cases closing : t.kind = .rightParen
        · simp [argumentsAfter, front, frontArgs, closing, bind, Except.bind, Except.map, pure,
            Except.pure]
        · simp [argumentsAfter, front, frontArgs, comma, closing, bind, Except.bind, Except.map]
          rfl

/-- Skips a closing bracket behind a tree. -/
def closed (kind : Token.Kind) (place : Closing) (e : Expr) : List Token → Outcome
  | t :: rest => if t.kind = kind then .ok (e, rest) else .error (.missingClosing place)
  | [] => .error (.missingClosing place)

lemma front_closing (kind : Token.Kind) (place : Closing) (inner : Parsed n) :
    front (closing kind place inner) = closed kind place inner.expr inner.rest := by
  obtain ⟨e, r, fewer⟩ := inner
  cases r with
  | nil => rfl
  | cons t rest =>
    by_cases closing : t.kind = kind
    · simp [Parse.closing, closed, closing, front, Except.map]
    · simp [Parse.closing, closed, closing, front, Except.map]

/-- A name, with the level that may follow it. -/
def readNamed (t : Token) : List Token → Outcome
  | b :: inner =>
    if b.kind = .leftBracket then
      (read .subsetLevel inner).bind fun p =>
        (closed .rightBracket .level p.1 p.2).map fun q => (.subset t q.1, q.2)
    else .ok (.name t, b :: inner)
  | [] => .ok (.name t, [])

lemma front_named (t : Token) (rest : List Token) : front (named t rest) = readNamed t rest := by
  cases rest with
  | nil =>
    rw [named]
    rfl
  | cons b inner =>
    rw [named]
    by_cases bracket : b.kind = .leftBracket
    · simp only [bracket, if_true, readNamed, read, readLevel, bind, Except.bind]
      cases primary inner with
      | error fault => rfl
      | ok found =>
        obtain ⟨e, r, fewer⟩ := found
        simp only [front, Except.map]
        cases levelOf e with
        | error fault => rfl
        | ok level =>
          cases r with
          | nil => rfl
          | cons c after =>
            by_cases closing : c.kind = .rightBracket
            · simp [Parse.closing, closed, closing, pure, Except.pure]
            · simp [Parse.closing, closed, closing]
    · simp [bracket, readNamed, front, Except.map, pure, Except.pure]

lemma read_primary_nil : read .primary [] = .error (.unexpectedToken "") := by
  simp only [read]
  rw [Parse.primary]
  rfl

/-- An expression up to a closing bracket. -/
def bracketed (kind : Token.Kind) (place : Closing) (tree : Expr → Expr) (ts : List Token) :
    Outcome :=
  (read .expression ts).bind fun p => (closed kind place p.1 p.2).map fun q => (tree q.1, q.2)

/-- A primary expression is read by the kind of its first token. -/
lemma read_primary_cons (t : Token) (rest : List Token) : read .primary (t :: rest) =
    match t.kind, t.literal with
    | .identifier, _ => readNamed t rest
    | .number, some value => .ok (.literal value none, rest)
    | .string, some value => .ok (.literal value (some t.lexeme), rest)
    | .quotedName, _ => .ok (.quotedName t, rest)
    | .leftParen, _ => bracketed .rightParen .grouping .grouping rest
    | .leftBrace, _ => bracketed .rightBrace .braces (fun e => .call (.name identityName) [e]) rest
    | _, _ => .error (.unexpectedToken t.lexeme) := by
  -- parentheses and braces are read in the same way
  have between (kind : Token.Kind) (place : Closing) (tree : Expr → Expr) : front ((do
        let inner ← expression rest
        let after ← closing kind place inner
        return ⟨tree after.expr, after.rest, Nat.lt_succ_of_lt after.fewer⟩ :
        Except Fault (Parsed (t :: rest).length))) = bracketed kind place tree rest := by
    simp only [bracketed, read]
    cases expression rest with
    | error fault => rfl
    | ok inner =>
      simp only [front, bind, Except.bind, Except.map, ← front_closing]
      cases closing kind place inner <;> rfl
  simp only [read]
  rw [Parse.primary]
  cases t.kind with
  | identifier => exact front_named t rest
  | number | string => cases t.literal <;> rfl
  | leftParen => exact between .rightParen .grouping .grouping
  | leftBrace => exact between .rightBrace .braces fun e => .call (.name identityName) [e]
  | _ => rfl

end ModelFormula.Expr
