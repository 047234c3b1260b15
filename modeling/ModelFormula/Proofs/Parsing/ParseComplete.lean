import ModelFormula.Proofs.Parsing.Grammar

/-!
# The parser reads all that the grammar derives

A phrase is read to its end if the token behind it cannot extend it. For the symbols of the loops
the induction says that reading the phrase is going on with the loop.
-/
namespace ModelFormula.Expr

open List

variable {s : Symbol} {rest w : List Token} {e : Expr}

open Parse

/-- A level and the tighter ones. -/
def upTo : Level → List Level
  | .group => [.group, .comparison, .sum, .product, .interaction, .power]
  | .comparison => [.comparison, .sum, .product, .interaction, .power]
  | .sum => [.sum, .product, .interaction, .power]
  | .product => [.product, .interaction, .power]
  | .interaction => [.interaction, .power]
  | .power => [.power]

/-- The operators of a level and of the tighter ones. -/
def operatorsUpTo (l : Level) : List Token.Kind := (upTo l).flatMap Level.operators

/-- The kinds of tokens that extend a phrase if they follow it. -/
def extending : Symbol → List Token.Kind
  | .subsetLevel | .primary => [.leftBracket]
  | .call | .unary => [.leftParen, .leftBracket]
  | .level l => operatorsUpTo l ++ [.leftParen, .leftBracket]
  | .tilde => .tilde :: operatorsUpTo .group ++ [.leftParen, .leftBracket]
  | .expression => .equal :: .tilde :: operatorsUpTo .group ++ [.leftParen, .leftBracket]

/-- Behind a phrase of the symbol these tokens do not extend it. -/
def Stops (s : Symbol) (rest : List Token) : Prop := ∀ t ∈ rest.head?, t.kind ∉ extending s

lemma Stops.cons {t : Token} (kind : t.kind ∉ extending s) : Stops s (t :: rest) := by
  simpa [Stops] using kind

lemma Stops.mono (stops : Stops s rest) (fewer : extending s' ⊆ extending s) : Stops s' rest :=
  fun t first mem => stops t first (fewer mem)

lemma extending_operandSymbol (l : Level) : extending (operandSymbol l) ⊆ extending (.level l) := by
  cases l <;> decide

lemma operators_subset (l : Level) : l.operators ⊆ extending (.level l) := by
  cases l <;> decide

lemma operator_not_extending (operator : k ∈ l.operators) : k ∉ extending (operandSymbol l) := by
  revert k
  cases l <;> decide

/-! ### The loops stop -/

lemma operations_stop (stops : Stops (.level l) rest) :
    front (Parse.operations l e rest) = .ok (e, rest) := by
  cases rest with
  | nil => exact front_operations_nil l e
  | cons t rest =>
    have outside : t.kind ∉ l.operators := fun operator => stops t rfl (operators_subset l operator)
    rw [front_operations_cons, if_neg outside]

lemma calls_stop (stops : Stops .call rest) : front (Parse.calls e rest) = .ok (e, rest) := by
  cases rest with
  | nil => exact front_calls_nil e
  | cons t rest =>
    have outside : t.kind ≠ .leftParen := fun opening => stops t rfl (by rw [opening]; decide)
    rw [front_calls_cons, if_neg outside]

/-- Reading a phrase gives its tree, or comes to the loop with it. -/
def Completes (s : Symbol) (w : List Token) (e : Expr) : Prop :=
  ∀ rest, match s with
    | .level l => Stops (operandSymbol l) rest →
      read (.level l) (w ++ rest) = front (Parse.operations l e rest)
    | .call => Stops .primary rest → read .call (w ++ rest) = front (Parse.calls e rest)
    | s => Stops s rest → read s (w ++ rest) = .ok (e, rest)

lemma Completes.read (completes : Completes s w e) (rest : List Token) (stops : Stops s rest) :
    read s (w ++ rest) = .ok (e, rest) := by
  -- at the end of a phrase of a level or a call the loop stops at once
  cases s with
  | level l =>
    have reading := completes rest (stops.mono (extending_operandSymbol l))
    rw [reading, operations_stop stops]
  | call =>
    have reading := completes rest (stops.mono (by decide))
    rw [reading, calls_stop stops]
  | expression | tilde | unary | primary | subsetLevel => exact completes rest stops

/-! ### First tokens -/

/-- The kinds of tokens that begin a phrase. -/
def beginning : Symbol → List Token.Kind
  | .call | .primary | .subsetLevel =>
    [.identifier, .number, .string, .quotedName, .leftParen, .leftBrace]
  | _ => [.plus, .minus, .identifier, .number, .string, .quotedName, .leftParen, .leftBrace]

lemma beginning_subset (s : Symbol) : beginning s ⊆ beginning .expression := by
  cases s with
  | call | primary | subsetLevel => decide
  | expression | tilde | level | unary => exact Subset.refl _

/-- No phrase is empty. -/
lemma Derives.first (derives : Derives s w e) : ∃ t u, w = t :: u ∧ t.kind ∈ beginning s := by
  induction derives with
  | assignment _ _ _ _ left _ =>
    obtain ⟨t, u, rfl, kind⟩ := left
    exact ⟨t, _, rfl, beginning_subset .primary kind⟩
  | response _ _ _ left _ | operation _ _ _ left _ | emptyCall _ _ _ left
  | call _ _ _ _ _ _ left _ _ =>
    obtain ⟨t, u, rfl, kind⟩ := left
    exact ⟨t, _, rfl, kind⟩
  | expression _ ih | tilde _ ih | uncalled _ ih | levelString _ ih => exact ih
  | unsigned _ ih =>
    obtain ⟨t, u, rfl, kind⟩ := ih
    exact ⟨t, u, rfl, beginning_subset .call kind⟩
  | @operand level _ _ _ ih =>
    obtain ⟨t, u, rfl, kind⟩ := ih
    exact ⟨t, u, rfl, beginning_subset (operandSymbol level) kind⟩
  | sign kind _ _ =>
    refine ⟨_, _, rfl, ?_⟩
    rcases kind with kind | kind <;> simp [beginning, kind]
  | name kind | subset kind _ _ _ | number kind _ | string kind _ | quotedName kind
  | grouping kind _ _ | braces kind _ _ | levelName kind | levelQuotedName kind
  | levelGrouping kind _ _ | levelBraces kind _ _ => exact ⟨_, _, rfl, by simp [beginning, kind]⟩

/-! ### Phrases in brackets -/

lemma read_grouping (opening : o.kind = .leftParen) (inner : Completes .expression w e)
    (closing : c.kind = .rightParen) :
    read .primary (o :: (w ++ [c]) ++ rest) = .ok (.grouping e, rest) := by
  have reading := inner.read (c :: rest) (Stops.cons (by rw [closing]; decide))
  simp [read_primary_cons, opening, bracketed, reading, closed, closing, Except.bind, Except.map]

lemma read_braces (opening : o.kind = .leftBrace) (inner : Completes .expression w e)
    (closing : c.kind = .rightBrace) :
    read .primary (o :: (w ++ [c]) ++ rest) = .ok (.call (.name identityName) [e], rest) := by
  have reading := inner.read (c :: rest) (Stops.cons (by rw [closing]; decide))
  simp [read_primary_cons, opening, bracketed, reading, closed, closing, Except.bind, Except.map]

lemma read_name (kind : t.kind = .identifier) (stops : Stops .primary rest) :
    read .primary ([t] ++ rest) = .ok (.name t, rest) := by
  cases rest with
  | nil => simp [read_primary_cons, kind, readNamed]
  | cons b rest =>
    have outside : b.kind ≠ .leftBracket := fun bracket => stops b rfl (by rw [bracket]; decide)
    simp [read_primary_cons, kind, readNamed, outside]

/-- The arguments of a call are read one after the other. -/
lemma read_someArguments {more : Further} (first : Completes .expression w e)
    (commas : ∀ a ∈ more, a.1.kind = .comma)
    (others : ∀ a ∈ more, Completes .expression a.2.1 a.2.2) (closing : c.kind = .rightParen) :
    frontArgs (Parse.someArguments (w ++ more.tokens ++ c :: rest)) =
      .ok (e :: more.trees, rest) := by
  induction more generalizing w e with
  | nil =>
    have reading := first.read (c :: rest) (Stops.cons (by rw [closing]; decide))
    simp [frontArgs_someArguments, Further.tokens, Further.trees, reading, argumentsAfter, closing,
      Except.bind]
  | cons a more ih =>
    obtain ⟨t, v, e'⟩ := a
    have comma : t.kind = .comma := commas _ mem_cons_self
    have reading := first.read (t :: (v ++ Further.tokens more ++ c :: rest))
      (Stops.cons (by rw [comma]; decide))
    have following := ih (others _ mem_cons_self) (fun a mem => commas a (mem_cons_of_mem _ mem))
      fun a mem => others a (mem_cons_of_mem _ mem)
    have split : w ++ Further.tokens ((t, v, e') :: more) ++ c :: rest =
        w ++ t :: (v ++ Further.tokens more ++ c :: rest) := by
      simp [Further.tokens]
    rw [split, frontArgs_someArguments, reading]
    simp only [Except.bind, argumentsAfter, comma, if_true, following]
    rfl

/-- A first token that begins an argument does not close the call. -/
lemma read_arguments (derives : Derives .expression w e) :
    frontArgs (Parse.arguments (w ++ rest)) = frontArgs (Parse.someArguments (w ++ rest)) := by
  obtain ⟨t, u, rfl, kind⟩ := derives.first
  have open_ : t.kind ≠ .rightParen := by
    intro closing
    rw [closing] at kind
    revert kind
    decide
  rw [cons_append, frontArgs_arguments_cons, if_neg open_]

lemma read_subsetLevel (reading : read .primary (w ++ rest) = .ok (e, rest))
    (found : levelOf e = .ok level) : read .subsetLevel (w ++ rest) = .ok (level, rest) := by
  simp only [read, readLevel] at reading ⊢
  rw [reading]
  simp [Except.bind, found, Except.map]

/-! ### A phrase of a tighter symbol -/

lemma Completes.uncalled (inner : Completes .primary w e) : Completes .call w e := by
  intro rest stops
  rw [read_call, inner.read rest stops]
  rfl

lemma Completes.unsigned (derives : Derives .call w e) (inner : Completes .call w e) :
    Completes .unary w e := by
  intro rest stops
  obtain ⟨t, u, rfl, kind⟩ := derives.first
  -- the first token of a call is no sign
  have unsigned : ¬ (t.kind = .plus ∨ t.kind = .minus) := by
    rintro (sign | sign) <;> rw [sign] at kind <;> revert kind <;> decide
  rw [cons_append, read_unary_cons, if_neg unsigned]
  exact inner.read rest stops

lemma Completes.operand {level : Level} (inner : Completes (operandSymbol level) w e) :
    Completes (.level level) w e := by
  intro rest stops
  rw [read_level, inner.read rest stops]
  rfl

lemma Completes.tilde (inner : Completes (.level .group) w e) : Completes .tilde w e := by
  intro rest stops
  have reading := inner.read rest (stops.mono (by decide))
  rw [read_tilde, reading]
  cases rest with
  | nil => rfl
  | cons t rest =>
    have outside : t.kind ≠ .tilde := fun tilde => stops t rfl (by rw [tilde]; decide)
    simp [Except.bind, respondedTo, outside]

/-- The target of an assignment is read as the left side of a tilde would be. -/
lemma Completes.target (derives : Derives .primary w e) (inner : Completes .primary w e) :
    Completes .tilde w e := by
  have unary := Completes.unsigned (.uncalled derives) inner.uncalled
  have power : Completes (.level .power) w e := .operand unary
  have interaction : Completes (.level .interaction) w e := .operand power
  have product : Completes (.level .product) w e := .operand interaction
  have sum : Completes (.level .sum) w e := .operand product
  have comparison : Completes (.level .comparison) w e := .operand sum
  exact .tilde (.operand comparison)

/-- Every phrase is read. -/
lemma completes (derives : Derives s w e) : Completes s w e := by
  induction derives with
  | @assignment v w t target value left named eq right ihLeft ihRight =>
    intro rest stops
    have readLeft := (ihLeft.target left).read (t :: (w ++ rest)) (Stops.cons (by rw [eq]; decide))
    have readRight := ihRight.read rest (stops.mono (by decide))
    simp [read_expression, readLeft, assignedTo, readRight, eq, assignment, named, Except.bind]
  | @expression w e inner ih =>
    intro rest stops
    have reading := ih.read rest (stops.mono (by decide))
    rw [read_expression, reading]
    cases rest with
    | nil => rfl
    | cons t rest =>
      have outside : t.kind ≠ .equal := fun eq => stops t rfl (by rw [eq]; decide)
      simp [Except.bind, assignedTo, outside]
  | @response v w t l r left tilde right ihLeft ihRight =>
    intro rest stops
    have readLeft := ihLeft.read (t :: (w ++ rest)) (Stops.cons (by rw [tilde]; decide))
    have readRight := ihRight.read rest (stops.mono (by decide))
    simp [read_tilde, readLeft, respondedTo, readRight, tilde, Except.bind]
  | tilde inner ih => exact ih.tilde
  | @operation level v w t l r left operator right ihLeft ihRight =>
    intro rest stops
    -- the left operand comes to the loop, which goes on with the operator
    have readLeft := ihLeft (t :: (w ++ rest)) (Stops.cons (operator_not_extending operator))
    have readRight := ihRight.read rest stops
    rw [append_assoc, cons_append, readLeft, front_operations_cons, if_pos operator, readRight]
    rfl
  | operand inner ih => exact ih.operand
  | @sign w t e sign inner ih =>
    intro rest stops
    rw [cons_append, read_unary_cons, if_pos sign, ih.read rest stops]
    rfl
  | unsigned inner ih => exact ih.unsigned inner
  | @emptyCall v o c f callee opening closing ih =>
    intro rest stops
    have readCallee := ih (o :: c :: rest) (Stops.cons (by rw [opening]; decide))
    rw [append_assoc]
    simp only [cons_append, nil_append]
    rw [readCallee, front_calls_cons, if_pos opening, frontArgs_arguments_cons, if_pos closing]
    rfl
  | @call v w o c f e more callee opening first commas others closing ihCallee ihFirst ihOthers =>
    intro rest stops
    -- the callee comes to the loop over calls, which goes on with the opening bracket
    have readCallee := ihCallee (o :: (w ++ more.tokens ++ c :: rest))
      (Stops.cons (by rw [opening]; decide))
    have readArgs := @read_someArguments rest w e c more ihFirst commas ihOthers closing
    have split : v ++ o :: (w ++ more.tokens ++ [c]) ++ rest =
        v ++ o :: (w ++ more.tokens ++ c :: rest) := by
      simp
    rw [split, readCallee, front_calls_cons, if_pos opening, append_assoc,
      read_arguments first, ← append_assoc, readArgs]
    rfl
  | uncalled inner ih => exact ih.uncalled
  | name kind => exact fun rest stops => read_name kind stops
  | @subset w t o c e kind opening level closing ih =>
    intro rest stops
    have reading := ih.read (c :: rest) (Stops.cons (by rw [closing]; decide))
    simp [read_primary_cons, kind, readNamed, opening, reading, closed, closing, Except.bind,
      Except.map]
  | number kind stands
  | string kind stands => exact fun rest _ => by simp [read_primary_cons, kind, stands]
  | quotedName kind => exact fun rest _ => by simp [read_primary_cons, kind]
  | grouping opening inner closing ih => exact fun rest _ => read_grouping opening ih closing
  | braces opening inner closing ih => exact fun rest _ => read_braces opening ih closing
  | levelString string ih => exact fun rest stops => read_subsetLevel (ih.read rest stops) rfl
  | levelName kind => exact fun rest stops => read_subsetLevel (read_name kind stops) rfl
  | levelQuotedName kind =>
    exact fun rest _ => read_subsetLevel (by simp [read_primary_cons, kind]; rfl) rfl
  | levelGrouping opening inner closing ih =>
    exact fun rest _ => read_subsetLevel (read_grouping opening ih closing) rfl
  | levelBraces opening inner closing ih =>
    exact fun rest _ => read_subsetLevel (read_braces opening ih closing) rfl

/-- The tokens of a phrase have only one tree. -/
lemma Derives.unique (derives : Derives s w e) (other : Derives s w e') : e = e' := by
  have stops : Stops s [] := by simp [Stops]
  have first := (completes derives).read [] stops
  rw [(completes other).read [] stops] at first
  cases first
  rfl

end ModelFormula.Expr
