import ModelFormula.Proofs.Calls.RowwiseCalls
import ModelFormula.Proofs.Parsing.ParseGrammar
import ModelFormula.Proofs.Parsing.Spacing

/-!
# Arithmetic inside a call

By convention a sign binds less tightly than a power, and powers group from the right. The grammar
of formulas does neither, so a text keeps its conventional meaning as long as no power is the
operand of a sign or the exponent of a power without parentheses.
-/
namespace ModelFormula

open List

open CallExpr (Sign Operator)
open ModelFormula.Expr (Derives)

inductive Arith.Operation where
  | add | sub | mul | div | pow
deriving DecidableEq, Repr

/-- Arithmetic on whole numbers and columns. -/
inductive Arith where
  | whole (n : Nat)
  | column (name : String)
  | signed (sign : Sign) (e : Arith)
  | operation (op : Arith.Operation) (left right : Arith)
deriving DecidableEq, Repr

namespace Arith

variable {op : Operation} {a b : Arith} {ts : List Token} {f : Frame}

/-! ### Conventional writing -/

namespace Operation

def operator : Operation → Operator
  | add => .add | sub => .sub | mul => .mul | div => .div | pow => .pow

def token : Operation → Token
  | add => ⟨.plus, "+", none⟩
  | sub => ⟨.minus, "-", none⟩
  | mul => ⟨.star, "*", none⟩
  | div => ⟨.slash, "/", none⟩
  | pow => ⟨.starStar, "**", none⟩

/-- How tightly an operation binds; signs stand in between with `3`, numbers and columns with `5`. -/
def rank : Operation → Nat
  | add | sub => 1
  | mul | div => 2
  | pow => 4

/-- What may stand on the left without parentheses. -/
def leftRank : Operation → Nat
  | add | sub => 1
  | mul | div => 2
  | pow => 5

/-- What may stand on the right without parentheses. -/
def rightRank : Operation → Nat
  | add | sub => 2
  | mul | div => 3
  | pow => 3

end Operation

def signToken : Sign → Token
  | .plus => ⟨.plus, "+", none⟩
  | .minus => ⟨.minus, "-", none⟩

def rank : Arith → Nat
  | whole _ => 5
  | column _ => 5
  | signed _ _ => 3
  | operation op _ _ => op.rank

def leftParen : Token := ⟨.leftParen, "(", none⟩

def rightParen : Token := ⟨.rightParen, ")", none⟩

/-- Puts parentheses around what binds less tightly than it must. -/
def enclose (needed rank : Nat) (ts : List Token) : List Token :=
  if needed ≤ rank then ts else leftParen :: (ts ++ [rightParen])

/-- The conventional writing, with no parentheses that are not needed. -/
def tokens : Arith → List Token
  | whole n => [⟨.number, toString n, some (.int n)⟩]
  | column s => [⟨.identifier, s, none⟩]
  | signed sign e => signToken sign :: enclose 3 e.rank e.tokens
  | operation op l r =>
    enclose op.leftRank l.rank l.tokens ++ op.token :: enclose op.rightRank r.rank r.tokens

/-- What the arithmetic comes to on a frame, operands from left to right. -/
def value (f : Frame) : Arith → Except Fault Value
  | whole n => .ok (.datum (.int n))
  | column s =>
    match f.column? (.text s) with
    | some c => .ok (.series c)
    | none => .error (.unknownName s)
  | signed sign e => do (← e.value f).unary sign
  | operation op l r => do
    let x ← l.value f
    x.binary op.operator (← r.value f)

/-- All names are those of numeric columns. -/
def Over (f : Frame) : Arith → Prop
  | whole _ => True
  | column s => CallExpr.constant? s = none ∧ ∃ c, f.column? (.text s) = some c ∧ c.isNumeric
  | signed _ e => e.Over f
  | operation _ l r => l.Over f ∧ r.Over f

/-! ### Regrouping -/

/-- Signs and powers in the order in which they are written: what stands in front of the next number,
column or parenthesis is applied to it at once. -/
def regroupFrom (front : Arith → Arith) : Arith → Arith
  | whole n => front (whole n)
  | column s => front (column s)
  | signed sign e => e.regroupFrom fun x => front (signed sign x)
  | operation .pow l r => r.regroupFrom (operation .pow (front (l.regroupFrom id)))
  | operation op l r => front (operation op (l.regroupFrom id) (r.regroupFrom id))

/-- The arithmetic as the grammar of formulas groups its conventional writing. -/
def regroup (a : Arith) : Arith := a.regroupFrom id

def isPower : Arith → Bool
  | operation .pow _ _ => true
  | _ => false

/-- No power is the operand of a sign or the exponent of a power. -/
def Plain : Arith → Prop
  | whole _ => True
  | column _ => True
  | signed _ e => e.Plain ∧ e.isPower = false
  | operation .pow l r => l.Plain ∧ r.Plain ∧ r.isPower = false
  | operation _ l r => l.Plain ∧ r.Plain

/-- An operation other than a power keeps its place. -/
lemma regroupFrom_operation (other : op ≠ .pow) (front : Arith → Arith) (l r : Arith) :
    (operation op l r).regroupFrom front = front (operation op l.regroup r.regroup) := by
  cases op <;> first | rfl | exact absurd rfl other

lemma plain_operation (other : op ≠ .pow) (l r : Arith) :
    (operation op l r).Plain ↔ l.Plain ∧ r.Plain := by
  cases op <;> first | rfl | exact absurd rfl other

/-- What is in front of something plain is applied to all of it, unless that is a power. -/
lemma regroupFrom_of_plain (plain : a.Plain) (front : Arith → Arith)
    (whole : a.isPower = false ∨ front = id) : a.regroupFrom front = front a := by
  induction a generalizing front with
  | whole n => rfl
  | column s => rfl
  | signed sign e ih => exact ih plain.1 _ (.inl plain.2)
  | operation op l r ihl ihr =>
    by_cases power : op = .pow
    -- only at the start, with nothing in front, may there be a power
    · subst power
      obtain rfl : front = id := whole.resolve_left (by simp [isPower])
      obtain ⟨left, right, ends⟩ := plain
      rw [regroupFrom, ihl left id (.inr rfl), ihr right _ (.inl ends)]
      rfl
    · obtain ⟨left, right⟩ := (plain_operation power l r).mp plain
      rw [regroupFrom_operation power, regroup, regroup, ihl left id (.inr rfl),
        ihr right id (.inr rfl)]
      rfl

/-- How many numbers, columns, signs and operations there are. Regrouping keeps their number, which
tells a base that has grown from the old one. -/
def size : Arith → Nat
  | whole _ => 1
  | column _ => 1
  | signed _ e => 1 + e.size
  | operation _ l r => 1 + l.size + r.size

lemma size_pos (a : Arith) : 0 < a.size := by
  cases a <;> simp only [size] <;> omega

lemma size_regroupFrom (a : Arith) {front : Arith → Arith} {k : Nat}
    (adds : ∀ x, (front x).size = k + x.size) : (a.regroupFrom front).size = k + a.size := by
  induction a generalizing front k with
  | whole n => exact adds _
  | column s => exact adds _
  | signed sign e ih =>
    rw [regroupFrom, @ih _ (k + 1) fun x => by rw [adds, size]; omega, size]
    omega
  | operation op l r ihl ihr =>
    have left : l.regroup.size = l.size := by simpa [regroup] using @ihl id 0 (by simp)
    by_cases power : op = .pow
    · subst power
      have added : ∀ x : Arith, (operation .pow (front l.regroup) x).size = (1 + k + l.size) + x.size := by
        intro x
        rw [size, adds, left]
        omega
      rw [regroupFrom, size]
      exact (ihr added).trans (by omega)
    · have right : r.regroup.size = r.size := by simpa [regroup] using @ihr id 0 (by simp)
      rw [regroupFrom_operation power, adds, size, size, left, right]

lemma size_regroup (a : Arith) : a.regroup.size = a.size := by
  simpa [regroup] using @size_regroupFrom a id 0 (by simp)

/-- No power behind the signs. -/
def bare : Arith → Bool
  | signed _ e => e.bare
  | operation .pow _ _ => false
  | _ => true

lemma not_isPower_of_bare (bare : a.bare) : a.isPower = false := by
  cases a with
  | operation op l r => cases op <;> first | rfl | cases bare
  | whole | column | signed => rfl

lemma regroupFrom_of_bare (bare : a.bare) (front : Arith → Arith) :
    a.regroupFrom front = front a.regroup := by
  induction a generalizing front with
  | whole n => rfl
  | column s => rfl
  | signed sign e ih => rw [regroup, regroupFrom, regroupFrom, ih bare, ih bare]; rfl
  | operation op l r _ _ =>
    have other : op ≠ .pow := fun power => by subst power; cases bare
    rw [regroup, regroupFrom_operation other, regroupFrom_operation other]
    rfl

/-- A power behind the signs takes all that is in front of it into its base. -/
lemma regroupFrom_of_power (power : a.bare = false) {front : Arith → Arith} {k : Nat}
    (adds : ∀ x, (front x).size = k + x.size) :
    ∃ l r, a.regroupFrom front = operation .pow l r ∧ k < l.size := by
  induction a generalizing front k with
  | whole n => cases power
  | column s => cases power
  | signed sign e ih =>
    obtain ⟨l, r, eq, large⟩ := @ih power (fun x => front (signed sign x)) (k + 1) fun x => by
      rw [adds, size]
      omega
    exact ⟨l, r, eq, by omega⟩
  | operation op l r _ ihr =>
    obtain rfl : op = .pow := by cases op <;> first | rfl | cases power
    have base : k < (front l.regroup).size := by
      have := l.regroup.size_pos
      rw [adds]
      omega
    by_cases ends : r.bare
    -- the exponent is either taken as it is or has a power itself, whose base grows further
    · exact ⟨_, _, regroupFrom_of_bare ends _, base⟩
    · have added : ∀ x : Arith, (operation .pow (front l.regroup) x).size =
          (1 + (front l.regroup).size) + x.size := fun x => rfl
      obtain ⟨l', r', eq, large⟩ := ihr (by simpa using ends) added
      exact ⟨l', r', eq, by omega⟩

/-- Exactly what is plain is grouped as conventionally. -/
lemma regroup_eq_self_iff (a : Arith) : a.regroup = a ↔ a.Plain := by
  refine ⟨fun same => ?_, fun plain => regroupFrom_of_plain plain id (.inr rfl)⟩
  induction a with
  | whole n => trivial
  | column s => trivial
  | signed sign e ih =>
    by_cases ends : e.bare
    · rw [regroup, regroupFrom, regroupFrom_of_bare ends, id, signed.injEq] at same
      exact ⟨ih same.2, not_isPower_of_bare ends⟩
    · -- a power came out, which is not the sign that was there
      obtain ⟨l, r, eq, _⟩ := @regroupFrom_of_power e (by simpa using ends) (signed sign) 1
        fun _ => rfl
      rw [regroup, regroupFrom, show (fun x => id (signed sign x)) = signed sign from rfl, eq] at same
      cases same
  | operation op l r ihl ihr =>
    by_cases power : op = .pow
    · subst power
      have whole : (operation .pow l r).regroup = r.regroupFrom (operation .pow l.regroup) := rfl
      rw [whole] at same
      by_cases ends : r.bare
      · rw [regroupFrom_of_bare ends, operation.injEq] at same
        exact ⟨ihl same.2.1, ihr same.2.2, not_isPower_of_bare ends⟩
      · -- the base has grown, so that it is not the old one
        obtain ⟨l', r', eq, large⟩ := @regroupFrom_of_power r (by simpa using ends)
          (operation .pow l.regroup) (1 + l.regroup.size) fun _ => rfl
        rw [eq, operation.injEq] at same
        rw [same.2.1, size_regroup] at large
        omega
    · rw [regroup, regroupFrom_operation power, id, operation.injEq] at same
      exact (plain_operation power l r).mpr ⟨ihl same.2.1, ihr same.2.2⟩

/-! ### Reading -/

/-- The arithmetic as the tree of a call. -/
def call : Arith → CallExpr
  | whole n => .value (.int n) none
  | column s => .name s
  | signed sign e => .unary sign e.call
  | operation op l r => .binary op.operator l.call r.call

/-- The tokens derive a tree that stands for the arithmetic. -/
def Reads (s : Expr.Symbol) (ts : List Token) (a : Arith) : Prop :=
  ∃ e, Derives s ts e ∧ CallExpr.ofExpr e = .ok a.call

lemma Reads.operand (reads : Reads (Expr.operandSymbol level) ts a) : Reads (.level level) ts a :=
  reads.imp fun _ => And.imp_left .operand

lemma Reads.unary (reads : Reads .primary ts a) : Reads .unary ts a :=
  reads.imp fun _ => And.imp_left fun inner => .unsigned (.uncalled inner)

/-- Powers are operands of products. -/
lemma Reads.product (reads : Reads (.level .power) ts a) : Reads (.level .product) ts a :=
  have interaction : Reads (.level .interaction) ts a := Reads.operand reads
  Reads.operand interaction

lemma Reads.sum (reads : Reads (.level .product) ts a) :
    Reads (.level .sum) ts a := Reads.operand reads

lemma Reads.expression (reads : Reads (.level .sum) ts a) : Reads .expression ts a :=
  have comparison : Reads (.level .comparison) ts a := Reads.operand reads
  have group : Reads (.level .group) ts a := Reads.operand comparison
  group.imp fun _ => And.imp_left fun inner => .expression (.tilde inner)

lemma Reads.enclosed (reads : Reads (.level .sum) ts a) :
    Reads .primary (leftParen :: (ts ++ [rightParen])) a := by
  obtain ⟨e, derives, read⟩ := reads.expression
  exact ⟨.grouping e, .grouping rfl derives rfl, by rw [CallExpr.ofExpr, read]⟩

lemma ofExpr_binary (left : CallExpr.ofExpr l = .ok a.call)
    (right : CallExpr.ofExpr r = .ok b.call) :
    CallExpr.ofExpr (.binary l op.token r) = .ok (operation op a b).call := by
  have known : CallExpr.operator? op.token.kind = some op.operator := by cases op <;> rfl
  rw [CallExpr.ofExpr, known]
  simp only [left, right, ok_bind, pure_ok, call]

lemma Reads.operation {v w : List Token} (mem : op.token.kind ∈ level.operators)
    (left : Reads (.level level) v a) (right : Reads (Expr.operandSymbol level) w b) :
    Reads (.level level) (v ++ op.token :: w) (operation op a b) := by
  obtain ⟨l, leftDerives, leftRead⟩ := left
  obtain ⟨r, rightDerives, rightRead⟩ := right
  exact ⟨_, .operation leftDerives mem rightDerives, ofExpr_binary leftRead rightRead⟩

lemma Reads.signed (sign : Sign) (reads : Reads .unary ts a) :
    Reads .unary (signToken sign :: ts) (signed sign a) := by
  obtain ⟨e, derives, read⟩ := reads
  refine ⟨.unary (signToken sign) e, .sign ?_ derives, ?_⟩
  · cases sign <;> simp [signToken]
  · have known : CallExpr.sign? (signToken sign).kind = some sign := by cases sign <;> rfl
    rw [CallExpr.ofExpr, known]
    simp only [read, ok_bind, pure_ok, call]

/-- Tokens in front of an operand that make a power of it, or leave it alone, as the function says. -/
def Opens (ts : List Token) (front : Arith → Arith) : Prop :=
  ∀ us a, Reads .unary us a → Reads (.level .power) (ts ++ us) (front a)

lemma opens_nothing : Opens [] id := fun _ _ reads => Reads.operand reads

lemma Opens.signed (opens : Opens ts front) (sign : Sign) :
    Opens (ts ++ [signToken sign]) fun x => front (signed sign x) := by
  intro us a reads
  simpa using opens _ _ (reads.signed sign)

lemma Opens.power {us : List Token} {front : Arith → Arith} (opens : Opens ts front)
    (base : Reads .unary us a) :
    Opens (ts ++ us ++ [Operation.pow.token]) (Arith.operation .pow (front a)) := by
  intro vs b reads
  have whole := @Reads.operation .pow _ _ .power _ _ (by decide) (opens us a base) reads
  simpa using whole

/-- How the writing of some arithmetic is read where a sum, a product or an operand of a product may
stand. Behind tokens that open a power it goes on with that power. -/
structure Read (a : Arith) : Prop where
  sum : Reads (.level .sum) a.tokens a.regroup
  product : 2 ≤ a.rank → Reads (.level .product) a.tokens a.regroup
  factor : 3 ≤ a.rank → ∀ {ts front}, Opens ts front →
    Reads (.level .power) (ts ++ a.tokens) (a.regroupFrom front)
  atom : 5 ≤ a.rank → Reads .primary a.tokens a.regroup

lemma bare_of_rank (loose : a.rank < 3) : a.bare := by
  cases a with
  | operation op l r => cases op <;> simp_all [rank, Operation.rank, bare]
  | whole | column | signed => simp [rank] at loose

namespace Read

variable (read : a.Read)

include read

lemma enclosed_product : Reads (.level .product) (enclose 2 a.rank a.tokens) a.regroup := by
  rw [enclose]
  split
  next tight => exact read.product tight
  next => exact (Reads.operand read.sum.enclosed.unary : Reads (.level .power) _ _).product

lemma enclosed_factor (opens : Opens ts front) :
    Reads (.level .power) (ts ++ enclose 3 a.rank a.tokens) (a.regroupFrom front) := by
  rw [enclose]
  split
  next tight => exact read.factor tight opens
  next loose =>
    -- parentheses make an operand of it, and then nothing in front goes into it
    rw [regroupFrom_of_bare (bare_of_rank (Nat.not_le.mp loose))]
    exact opens _ _ read.sum.enclosed.unary

lemma enclosed_atom : Reads .unary (enclose 5 a.rank a.tokens) a.regroup := by
  rw [enclose]
  split
  next tight => exact (read.atom tight).unary
  next => exact read.sum.enclosed.unary

end Read

/-- Numbers and columns can stand everywhere. -/
lemma read_of_primary (reads : Reads .primary a.tokens a.regroup)
    (stays : ∀ front, a.regroupFrom front = front a.regroup) : a.Read where
  sum := (Reads.operand reads.unary : Reads (.level .power) _ _).product.sum
  product _ := (Reads.operand reads.unary : Reads (.level .power) _ _).product
  factor _ _ front opens := by
    rw [stays front]
    exact opens _ _ reads.unary
  atom _ := reads

/-- What is read as a factor is read as a product and as a sum. -/
lemma read_of_factor (loose : a.rank < 5) (factor : ∀ {ts front}, Opens ts front →
      Reads (.level .power) (ts ++ a.tokens) (a.regroupFrom front)) : a.Read where
  sum := (factor opens_nothing).product.sum
  product _ := (factor opens_nothing).product
  factor _ _ _ := factor
  atom tight := absurd tight (by omega)

variable {l r : Arith}

/-- An operation other than a power stands where its own level may. -/
lemma reads_operation (other : op ≠ .pow) (mem : op.token.kind ∈ level.operators)
    (left : Reads (.level level) (enclose op.leftRank l.rank l.tokens) l.regroup)
    (right : Reads (Expr.operandSymbol level) (enclose op.rightRank r.rank r.tokens) r.regroup) :
    Reads (.level level) (operation op l r).tokens (operation op l r).regroup := by
  rw [tokens, regroup, regroupFrom_operation other]
  exact Reads.operation mem left right

lemma read_product (isProduct : op = .mul ∨ op = .div) (left : l.Read) (right : r.Read) :
    (operation op l r).Read := by
  have second : Reads (.level .interaction) (enclose 3 r.rank r.tokens) r.regroup :=
    Reads.operand (right.enclosed_factor opens_nothing)
  have whole : Reads (.level .product) (operation op l r).tokens (operation op l r).regroup ∧
      (operation op l r).rank = 2 := by
    rcases isProduct with rfl | rfl <;>
      exact ⟨reads_operation (by decide) (by decide) left.enclosed_product second, rfl⟩
  exact ⟨whole.1.sum, fun _ => whole.1, by omega, by omega⟩

lemma read_sum (isSum : op = .add ∨ op = .sub) (left : l.Read) (right : r.Read) :
    (operation op l r).Read := by
  -- a sum on the left of a sum never needs parentheses
  have first : Reads (.level .sum) (enclose 1 l.rank l.tokens) l.regroup := by
    have pos : 1 ≤ l.rank := by
      cases l with
      | operation op => cases op <;> simp [rank, Operation.rank]
      | whole | column | signed => simp [rank]
    rw [enclose, if_pos pos]
    exact left.sum
  have whole : Reads (.level .sum) (operation op l r).tokens (operation op l r).regroup ∧
      (operation op l r).rank = 1 := by
    rcases isSum with rfl | rfl <;>
      exact ⟨reads_operation (by decide) (by decide) first right.enclosed_product, rfl⟩
  exact ⟨whole.1, by omega, by omega, by omega⟩

/-- The writing of any arithmetic is read as the regrouped arithmetic. -/
lemma read_tokens (a : Arith) : a.Read := by
  induction a with
  | whole n => exact read_of_primary ⟨_, .number rfl rfl, rfl⟩ fun _ => rfl
  | column s => exact read_of_primary ⟨_, .name rfl, rfl⟩ fun _ => rfl
  | signed sign e ih =>
    -- the sign belongs to the operand behind it, together with all that was open before
    refine read_of_factor (by simp [rank]) fun {ts front} opens => ?_
    have whole := ih.enclosed_factor (opens.signed sign)
    simpa [tokens, regroupFrom] using whole
  | operation op l r left right =>
    cases op with
    | add => exact read_sum (.inl rfl) left right
    | sub => exact read_sum (.inr rfl) left right
    | mul => exact read_product (.inl rfl) left right
    | div => exact read_product (.inr rfl) left right
    | pow =>
      -- what was open is closed by the base, and the exponent is read behind the new power
      refine read_of_factor (by simp [rank, Operation.rank]) fun {ts front} opens => ?_
      have whole := right.enclosed_factor (opens.power left.enclosed_atom)
      simpa [tokens, regroupFrom, regroup, Operation.leftRank, Operation.rightRank] using whole

/-! ### Evaluation -/

lemma over_regroupFrom (known : a.Over f) (keeps : ∀ x : Arith, x.Over f → (front x).Over f) :
    (a.regroupFrom front).Over f := by
  induction a generalizing front with
  | whole n | column s => exact keeps _ known
  | signed sign e ih => exact ih known fun x inner => keeps _ inner
  | operation op l r ihl ihr =>
    have left : l.regroup.Over f := ihl known.1 fun _ => id
    by_cases power : op = .pow
    · subst power
      exact ihr known.2 fun x inner => ⟨keeps _ left, inner⟩
    · rw [regroupFrom_operation power]
      exact keeps _ ⟨left, ihr known.2 fun _ => id⟩

/-- Evaluating the tree needs no memory and gives the value. -/
lemma eval_call (known : a.Over f) (names : CallExpr.Names) (path : List Nat) (m : Memories) :
    outcome (CallExpr.eval (.frame f) names path a.call) m = (a.value f, m) := by
  induction a generalizing path with
  | whole n => rfl
  | column s =>
    obtain ⟨free, c, found, _⟩ := known
    have resolved : CallExpr.resolveName (.frame f) names s = .ok (.series c) := by
      simp [CallExpr.resolveName, free, CallExpr.column, found, ok_bind, pure_ok]
    simp only [call, CallExpr.eval, resolved, value, found]
    rfl
  | signed sign e ih =>
    simp only [call, CallExpr.eval, value, outcome_bind, ih known]
    cases e.value f <;> rfl
  | operation op l r ihl ihr =>
    simp only [call, CallExpr.eval, value, outcome_bind, ihl known.1]
    cases l.value f with
    | error fault => rfl
    | ok x =>
      simp only [ihr known.2]
      cases r.value f <;> rfl

/-! ### Texts -/

/-- The text that stands in a call of the identity, by name or by braces. -/
def inCall (code : String) : List String := ["I(" ++ code ++ ")", "\x7b" ++ code ++ "\x7d"]

def leftBrace : Token := ⟨.leftBrace, "\x7b", none⟩

def rightBrace : Token := ⟨.rightBrace, "\x7d", none⟩

lemma not_tilde_enclose {needed rank : Nat} (free : ∀ t ∈ ts, Token.isTilde t = false) :
    ∀ t ∈ enclose needed rank ts, Token.isTilde t = false := by
  intro t mem
  rw [enclose] at mem
  split at mem
  · exact free t mem
  · simp only [mem_cons, mem_append, not_mem_nil, or_false] at mem
    rcases mem with rfl | mem | rfl
    · rfl
    · exact free t mem
    · rfl

lemma not_tilde_tokens (a : Arith) : ∀ t ∈ a.tokens, Token.isTilde t = false := by
  induction a with
  | whole n | column s => simp [tokens, Token.isTilde]
  | signed sign e ih =>
    refine forall_mem_cons.mpr ⟨?_, not_tilde_enclose ih⟩
    cases sign <;> rfl
  | operation op l r left right =>
    refine forall_mem_append.mpr ⟨not_tilde_enclose left, ?_⟩
    refine forall_mem_cons.mpr ⟨?_, not_tilde_enclose right⟩
    cases op <;> rfl

section Texts

variable {code : String} (written : Token.tokens code.toList = .ok a.tokens)

include written

lemma tokens_closed (separator : Token.Separator stop kind) :
    Token.tokens (code.toList ++ [stop]) = .ok (a.tokens ++ [⟨kind, stop.toString, none⟩]) := by
  have closed : ¬ Token.Unclosed code.toList := by simp [Token.Unclosed, written]
  rw [Token.tokens_append_separator separator closed, written, Token.tokens]
  rfl

lemma scan_named : Token.scan ("I(" ++ code ++ ")") false =
    .ok (Expr.Parse.identityName :: leftParen :: (a.tokens ++ [rightParen]) ++ [Token.endMark]) := by
  have name : ∀ rest, Token.next 'I' ('(' :: rest) = .ok (Expr.Parse.identityName, '(' :: rest) := by
    intro rest
    have quote : Token.isQuote 'I' = false := by decide +kernel
    have back : ('I' == Token.backQuote) = false := by decide +kernel
    have digit : Text.isDigit 'I' = false := by decide +kernel
    have letter : Text.isLetter 'I' := by decide +kernel
    have stops : Token.isNameChar '(' = false := by decide +kernel
    simp [Token.next, quote, back, Token.single?, Token.double?, digit, letter, stops,
      Expr.Parse.identityName]
  have whole : ("I(" ++ code ++ ")").toList = 'I' :: '(' :: (code.toList ++ [')']) := by simp
  have found : Token.tokens ("I(" ++ code ++ ")").toList =
      .ok (Expr.Parse.identityName :: leftParen :: (a.tokens ++ [rightParen])) := by
    rw [whole, Token.tokens_next (by decide) (name _),
      Token.tokens_next (t := leftParen) (by decide) rfl,
      tokens_closed written Token.separator_rightParen]
    rfl
  refine Token.scan_eq_ok_iff.mpr ⟨by simp, _, found, ?_, rfl⟩
  rw [countP_eq_zero.mpr]
  · exact Nat.zero_le 1
  · simpa [or_imp, forall_and] using ⟨rfl, rfl, a.not_tilde_tokens, rfl⟩

lemma scan_braced : Token.scan ("\x7b" ++ code ++ "\x7d") false =
    .ok (leftBrace :: (a.tokens ++ [rightBrace]) ++ [Token.endMark]) := by
  have whole : ("\x7b" ++ code ++ "\x7d").toList = '\x7b' :: (code.toList ++ ['\x7d']) := by simp
  have found : Token.tokens ("\x7b" ++ code ++ "\x7d").toList =
      .ok (leftBrace :: (a.tokens ++ [rightBrace])) := by
    rw [whole, Token.tokens_next (t := leftBrace) (by decide) rfl,
      tokens_closed written Token.separator_rightBrace]
    rfl
  refine Token.scan_eq_ok_iff.mpr ⟨by simp, _, found, ?_, rfl⟩
  rw [countP_eq_zero.mpr]
  · exact Nat.zero_le 1
  · simpa [or_imp, forall_and] using ⟨rfl, a.not_tilde_tokens, rfl⟩

/-- Both texts are read as one and the same call. -/
lemma parse_inCall {text : String} (mem : text ∈ inCall code) : ∃ ts tree,
    Token.scan text false = .ok ts ∧ Expr.parse ts = .ok tree ∧
      CallExpr.ofExpr tree = .ok (.call "I" [a.regroup.call] []) := by
  obtain ⟨e, derives, read⟩ := a.read_tokens.sum.expression
  have unassigned : ∀ target v, e ≠ .assign target v := by
    rintro target v rfl
    cases read
  have resolved : CallExpr.ofExpr (.call (.name Expr.Parse.identityName) [e]) =
      .ok (.call "I" [a.regroup.call] []) := by
    rw [CallExpr.ofExpr, CallExpr.ofArguments.eq_3 _ _ _ _ unassigned, read]
    rfl
  have parsed {us : List Token} (call : Derives .call us (.call (.name Expr.Parse.identityName) [e])) :
      Expr.parse (us ++ [Token.endMark]) = .ok (.call (.name Expr.Parse.identityName) [e]) := by
    have alone : Derives .expression us _ :=
      .expression (.tilde (.operand (call.level_of_call .comparison)))
    rw [Expr.parse, Expr.parseFront_eq_read, (Expr.read_all_iff rfl us _).mpr alone]
    rfl
  rcases mem_pair.mp mem with rfl | rfl
  · refine ⟨_, _, scan_named written, parsed ?_, resolved⟩
    have callee : Derives .call [Expr.Parse.identityName] (.name Expr.Parse.identityName) :=
      .uncalled (.name rfl)
    have call := @Derives.call _ _ leftParen rightParen _ _ [] callee rfl derives (by simp) (by simp) rfl
    simpa [Expr.Further.tokens, Expr.Further.trees] using call
  · refine ⟨_, _, scan_braced written, parsed ?_, resolved⟩
    exact .uncalled (.braces rfl derives rfl)

end Texts

/-- The identity returns its argument and remembers nothing. -/
lemma evaluate_identity (known : b.Over f) (identity : names "I" = .ok (.function .identity)) :
    CallExpr.evaluate (.call "I" [b.call] []) (.frame f) names [] = (b.value f, []) := by
  have callee : CallExpr.resolveCallee names "I" = .ok (.function .identity) := by
    rw [CallExpr.resolveCallee_of_clean 1 (by decide +kernel) (by decide +kernel) (by decide +kernel)]
    exact identity
  have memory : outcome (CallExpr.memoryFor [] (.function .identity)) [] = (.ok none, []) :=
    CallExpr.memoryFor_plain rfl (by simp)
  have whole : outcome (CallExpr.eval (.frame f) names [] (.call "I" [b.call] [])) [] =
      (b.value f, []) := by
    simp only [CallExpr.eval, CallExpr.evalList, outcome_bind, outcome_lift, callee, memory,
      eval_call known]
    cases b.value f <;> rfl
  exact whole

/-- Arithmetic on numeric columns of a frame, in its conventional writing with blanks anywhere, inside
a call of the identity: it is scanned, parsed and read as a call without a fault, and evaluating the
call comes to the regrouped arithmetic. That is the arithmetic as it was meant exactly if no power is
the operand of a sign or the exponent of a power. -/
theorem evaluate_inCall {a : Arith} {f : Frame} {names : CallExpr.Names} {code text : String}
    (known : a.Over f) (identity : names "I" = .ok (.function .identity))
    (written : Token.tokens code.toList = .ok a.tokens) (member : text ∈ inCall code) :
    (∃ ts tree e, Token.scan text false = .ok ts ∧ Expr.parse ts = .ok tree ∧
      CallExpr.ofExpr tree = .ok e ∧
      e.evaluate (.frame f) names [] = (a.regroup.value f, []) ∧
      (a.Plain → e.evaluate (.frame f) names [] = (a.value f, []))) ∧
    (a.regroup = a ↔ a.Plain) := by
  obtain ⟨ts, tree, scanned, parsed, read⟩ := parse_inCall written member
  have regrouped : a.regroup.Over f := over_regroupFrom known fun _ => id
  have evaluated := evaluate_identity regrouped identity
  refine ⟨⟨ts, tree, _, scanned, parsed, read, evaluated, fun plain => ?_⟩, a.regroup_eq_self_iff⟩
  rw [(regroup_eq_self_iff a).mpr plain] at evaluated ⊢
  exact evaluated

namespace Sample

/-- A column of whole numbers. -/
def frame : Frame := ⟨2, [(.text "x", ⟨.plain .int, [.int 3, .int 5]⟩)]⟩

def scope : CallExpr.Names
  | "I" => .ok (.function .identity)
  | s => .error (.unknownName s)

/-- `2 * -(x + 1) - x ** +2 / 4` -/
def quotient : Arith :=
  operation .sub (operation .mul (whole 2) (signed .minus (operation .add (column "x") (whole 1))))
    (operation .div (operation .pow (column "x") (signed .plus (whole 2))) (whole 4))

/-- `-x ** 2` -/
def negatedSquare : Arith := signed .minus (operation .pow (column "x") (whole 2))

end Sample

open Sample in
/-- In `2*-(x+1)-x**+2/4` every operation stands in the place of another one's operand. -/
theorem evaluate_inCall_quotient :
    quotient.Over frame ∧ Token.tokens "2*-(x+1)-x**+2/4".toList = .ok quotient.tokens ∧
      quotient.Plain ∧ ∃ ts tree e, Token.scan "I(2*-(x+1)-x**+2/4)" false = .ok ts ∧
        Expr.parse ts = .ok tree ∧ CallExpr.ofExpr tree = .ok e ∧
        e.evaluate (.frame frame) scope [] = (quotient.value frame, []) := by
  have column : (column "x").Over frame := ⟨rfl, _, rfl, rfl⟩
  have known : quotient.Over frame := ⟨⟨trivial, column, trivial⟩, ⟨column, trivial⟩, trivial⟩
  have plain : quotient.Plain := by simp [quotient, Plain, isPower]
  have written : Token.tokens "2*-(x+1)-x**+2/4".toList = .ok quotient.tokens := by cbv
  obtain ⟨⟨ts, tree, e, scanned, parsed, read, _, evaluated⟩, _⟩ :=
    evaluate_inCall known (rfl : scope "I" = _) written mem_cons_self
  exact ⟨known, written, plain, ts, tree, e, scanned, parsed, read, evaluated plain⟩

open Sample in
/-- `I(-x**2)` is the square of `-x` and not the negated square of `x`. -/
theorem evaluate_negatedSquare :
    Token.tokens "-x**2".toList = .ok negatedSquare.tokens ∧
      negatedSquare.value frame = .ok (.series ⟨.plain .int, [.int (-9), .int (-25)]⟩) ∧
      ∃ ts tree e, Token.scan "I(-x**2)" false = .ok ts ∧ Expr.parse ts = .ok tree ∧
        CallExpr.ofExpr tree = .ok e ∧ e.evaluate (.frame frame) scope [] =
          (.ok (.series ⟨.plain .int, [.int 9, .int 25]⟩), []) := by
  have written : Token.tokens "-x**2".toList = .ok negatedSquare.tokens := by cbv
  have squares : Value.powerWrap 3 2 = 9 ∧ Value.powerWrap 5 2 = 25 := by decide +kernel
  have mirrored : Value.powerWrap (-3) 2 = 9 ∧ Value.powerWrap (-5) 2 = 25 := by decide +kernel
  have known : negatedSquare.regroup.Over frame := ⟨⟨rfl, _, rfl, rfl⟩, trivial⟩
  obtain ⟨ts, tree, scanned, parsed, read⟩ := @parse_inCall _ _ written "I(-x**2)" mem_cons_self
  refine ⟨written, ?_, ts, tree, _, scanned, parsed, read, ?_⟩
  · have value : negatedSquare.value frame =
        (Value.series ⟨.plain .int, [.int (Value.powerWrap 3 2), .int (Value.powerWrap 5 2)]⟩).unary
          .minus := rfl
    rw [value, squares.1, squares.2]
    rfl
  · have value : negatedSquare.regroup.value frame = .ok (.series ⟨.plain .int,
          [.int (Value.powerWrap (-3) 2), .int (Value.powerWrap (-5) 2)]⟩) := rfl
    rw [evaluate_identity known rfl, value, mirrored.1, mirrored.2]
end Arith

end ModelFormula
