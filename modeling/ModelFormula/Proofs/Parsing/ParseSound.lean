import ModelFormula.Proofs.Parsing.Grammar

/-!
# The parser reads only what the grammar derives

By induction on the number of tokens and, for the same tokens, on the level: a function that returns
has taken tokens that derive its tree, and one that stops reports a fault of parsing.
-/
namespace ModelFormula.Expr

open List Parse

lemma length_induction {P : List Token → Prop}
    (step : ∀ ts, (∀ us : List Token, us.length < ts.length → P us) → P ts) (ts : List Token) :
    P ts :=
  (measure List.length).wf.induction ts step

/-- What is shown of all symbols on shorter tokens, and of the tighter symbols on the same tokens,
holds of every symbol on all tokens. -/
lemma read_induction {P : Symbol → List Token → Prop}
    (primary : ∀ ts, (∀ us : List Token, us.length < ts.length → ∀ s, P s us) → P .primary ts)
    (subsetLevel : ∀ ts, P .primary ts → P .subsetLevel ts)
    (call : ∀ ts, (∀ us : List Token, us.length < ts.length → ∀ s, P s us) → P .primary ts →
      P .call ts)
    (unary : ∀ ts, (∀ us : List Token, us.length < ts.length → ∀ s, P s us) → P .call ts →
      P .unary ts)
    (level : ∀ l ts, (∀ us : List Token, us.length < ts.length → ∀ s, P s us) →
      P (operandSymbol l) ts → P (.level l) ts)
    (tilde : ∀ ts, (∀ us : List Token, us.length < ts.length → ∀ s, P s us) →
      P (.level .group) ts → P .tilde ts)
    (expression : ∀ ts, (∀ us : List Token, us.length < ts.length → ∀ s, P s us) → P .tilde ts →
      P .expression ts)
    (ts : List Token) : ∀ s, P s ts := by
  induction ts using length_induction with
  | step ts shorter =>
    -- on the same tokens each symbol rests on the next tighter one, down to the primary
    have primary := primary ts shorter
    have unary := unary ts shorter (call ts shorter primary)
    have power := level .power ts shorter unary
    have interaction := level .interaction ts shorter power
    have product := level .product ts shorter interaction
    have sum := level .sum ts shorter product
    have comparison := level .comparison ts shorter sum
    have group := level .group ts shorter comparison
    have tilde := tilde ts shorter group
    intro s
    match s with
    | .expression => exact expression ts shorter tilde
    | .tilde => exact tilde
    | .level .group => exact group
    | .level .comparison => exact comparison
    | .level .sum => exact sum
    | .level .product => exact product
    | .level .interaction => exact interaction
    | .level .power => exact power
    | .unary => exact unary
    | .call => exact call ts shorter primary
    | .primary => exact primary
    | .subsetLevel => exact subsetLevel ts primary

/-- A name is a primary expression, whatever symbol it was derived from. -/
lemma Derives.primary_of_isVariable (derives : Derives s w e) (named : isVariable e) :
    Derives .primary w e := by
  induction derives with
  | expression _ ih | tilde _ ih | operand _ ih | unsigned _ ih | uncalled _ ih => exact ih named
  | name kind => exact .name kind
  | subset kind opening level closing => exact .subset kind opening level closing
  | _ => cases named

/-- A result with the given property, or a fault of parsing. -/
def Yields {β : Type} (x : Except Fault β) (P : β → Prop) : Prop :=
  match x with
  | .ok b => P b
  | .error fault => fault.category = .parse

lemma Yields.bind {β γ : Type} {x : Except Fault β} {k : β → Except Fault γ} {P : β → Prop}
    {Q : γ → Prop} (first : Yields x P) (next : ∀ b, x = .ok b → P b → Yields (k b) Q) :
    Yields (x.bind k) Q := by
  cases x with
  | error fault => exact first
  | ok b => exact next b rfl first

lemma Yields.imp {β : Type} {x : Except Fault β} {P Q : β → Prop} (yields : Yields x P)
    (weaker : ∀ b, P b → Q b) : Yields x Q := by
  cases x with
  | error fault => exact yields
  | ok b => exact weaker b yields

/-- The tokens that are taken derive the tree. -/
def Sound (s : Symbol) (ts : List Token) : Prop :=
  Yields (read s ts) fun p => ∃ w, ts = w ++ p.2 ∧ Derives s w p.1

/-- The tokens of the arguments of a call, and their trees. -/
inductive Arguments : List Token → List Expr → Prop
  | none : Arguments [] []
  | some {w : List Token} {e : Expr} {more : Further} (first : Derives .expression w e)
      (commas : ∀ a ∈ more, a.1.kind = .comma)
      (others : ∀ a ∈ more, Derives .expression a.2.1 a.2.2) :
      Arguments (w ++ more.tokens) (e :: more.trees)

lemma Arguments.derives_call {inner : List Token} (arguments : Arguments inner args)
    (callee : Derives .call v f) (opening : o.kind = .leftParen) (closing : c.kind = .rightParen) :
    Derives .call (v ++ o :: (inner ++ [c])) (.call f args) := by
  cases arguments with
  | none => exact .emptyCall callee opening closing
  | some first commas others => exact .call callee opening first commas others closing

lemma Arguments.singleton {w : List Token} {e : Expr} (first : Derives .expression w e) :
    Arguments w [e] := by
  have arguments := @Arguments.some w e [] first (by simp) (by simp)
  simpa [Further.tokens, Further.trees] using arguments

lemma Arguments.cons {w inner : List Token} {t : Token} {e : Expr} {args : List Expr}
    (first : Derives .expression w e) (comma : t.kind = .comma) (others : Arguments inner args)
    (nonempty : args ≠ []) : Arguments (w ++ t :: inner) (e :: args) := by
  cases others with
  | none => exact absurd rfl nonempty
  | @some v e' more second commas others =>
    have arguments := @Arguments.some w e ((t, v, e') :: more) first
      (by simpa [comma] using commas) (by simpa [second] using others)
    simpa [Further.tokens, Further.trees] using arguments

section Steps

variable {ts : List Token} (shorter : ∀ us : List Token, us.length < ts.length → ∀ s, Sound s us)
include shorter

lemma sound_someArguments (us : List Token) (less : us.length < ts.length) :
    Yields (frontArgs (Parse.someArguments us)) fun a =>
      ∃ inner c, us = inner ++ c :: a.2 ∧ Arguments inner a.1 ∧ a.1 ≠ [] ∧
        c.kind = .rightParen := by
  induction us using length_induction with
  | step us ih =>
    rw [frontArgs_someArguments]
    -- an argument takes at least one token, so the later arguments are shorter
    refine (shorter us less .expression).bind ?_
    rintro ⟨e, left⟩ returned ⟨w, rfl, first⟩
    have fewer := read_shorter returned
    cases left with
    | nil => exact rfl
    | cons t rest =>
      rw [length_cons] at fewer
      simp only [argumentsAfter]
      split
      next comma =>
        refine (ih rest (by omega) (by omega)).bind ?_
        rintro ⟨args, after⟩ - ⟨inner, c, rfl, others, nonempty, closing⟩
        exact ⟨w ++ t :: inner, c, by simp, .cons first comma others nonempty, by simp, closing⟩
      next =>
        split
        next closing => exact ⟨w, t, rfl, .singleton first, by simp, closing⟩
        next => exact rfl

lemma sound_arguments (us : List Token) (less : us.length < ts.length) :
    Yields (frontArgs (Parse.arguments us)) fun a =>
      ∃ inner c, us = inner ++ c :: a.2 ∧ Arguments inner a.1 ∧ c.kind = .rightParen := by
  have several : Yields (frontArgs (Parse.someArguments us)) fun a =>
      ∃ inner c, us = inner ++ c :: a.2 ∧ Arguments inner a.1 ∧ c.kind = .rightParen := by
    refine (sound_someArguments shorter us less).imp ?_
    rintro a ⟨inner, c, split, arguments, -, closing⟩
    exact ⟨inner, c, split, arguments, closing⟩
  cases us with
  | nil => rwa [frontArgs_arguments_nil]
  | cons t rest =>
    rw [frontArgs_arguments_cons]
    split
    next closing => exact ⟨[], t, rfl, .none, closing⟩
    next => exact several

/-- The loop over calls turns what it has derived so far into a longer callee. -/
lemma sound_calls (us : List Token) (less : us.length < ts.length)
    (derived : Derives .call v callee) :
    Yields (front (Parse.calls callee us)) fun p =>
      ∃ w, us = w ++ p.2 ∧ Derives .call (v ++ w) p.1 := by
  induction us using length_induction generalizing v callee with
  | step us ih =>
    cases us with
    | nil =>
      rw [front_calls_nil]
      exact ⟨[], rfl, by simpa using derived⟩
    | cons t rest =>
      rw [length_cons] at less
      rw [front_calls_cons]
      split
      next opening =>
        refine (sound_arguments shorter rest (by omega)).bind ?_
        rintro ⟨args, after⟩ returned ⟨inner, c, rfl, arguments, closing⟩
        have fewer := frontArgs_shorter returned
        -- what was called before becomes the callee of the next call
        have longer := arguments.derives_call derived opening closing
        refine (ih after (by simp only [length_cons] at fewer ⊢; omega) (by omega) longer).imp ?_
        rintro p ⟨w, rfl, derives⟩
        exact ⟨t :: (inner ++ c :: w), by simp, by simpa using derives⟩
      next => exact ⟨[], rfl, by simpa using derived⟩

lemma sound_operations (level : Level) (us : List Token) (less : us.length < ts.length)
    (derived : Derives (.level level) v left) :
    Yields (front (Parse.operations level left us)) fun p =>
      ∃ w, us = w ++ p.2 ∧ Derives (.level level) (v ++ w) p.1 := by
  induction us using length_induction generalizing v left with
  | step us ih =>
    cases us with
    | nil =>
      rw [front_operations_nil]
      exact ⟨[], rfl, by simpa using derived⟩
    | cons t rest =>
      rw [length_cons] at less
      rw [front_operations_cons]
      split
      next operator =>
        refine (shorter rest (by omega) (operandSymbol level)).bind ?_
        rintro ⟨right, after⟩ returned ⟨w, split, operand⟩
        have fewer := read_shorter returned
        -- the loop is left-associative: what was read so far becomes the left operand
        have longer := Derives.operation derived operator operand
        refine (ih after (by rw [length_cons]; omega) (by omega) longer).imp ?_
        rintro p ⟨x, rfl, derives⟩
        exact ⟨t :: (w ++ x), by simp [split], by simpa using derives⟩
      next => exact ⟨[], rfl, by simpa using derived⟩

omit shorter in
lemma yields_closed (kind : Token.Kind) (place : Closing) (e : Expr) (us : List Token) :
    Yields (closed kind place e us) fun q => ∃ c, us = c :: q.2 ∧ q.1 = e ∧ c.kind = kind := by
  cases us with
  | nil => exact rfl
  | cons t rest =>
    simp only [closed]
    split
    next closing => exact ⟨t, rfl, rfl, closing⟩
    next => exact rfl

omit shorter in
lemma Yields.map {β γ : Type} {x : Except Fault β} {f : β → γ} {P : γ → Prop}
    (yields : Yields x fun b => P (f b)) : Yields (x.map f) P := by
  cases x with
  | error fault => exact yields
  | ok b => exact yields

lemma sound_bracketed (less : us.length < ts.length) (kind : Token.Kind) (place : Closing)
    (tree : Expr → Expr) :
    Yields (bracketed kind place tree us) fun q =>
      ∃ w c e, us = w ++ c :: q.2 ∧ q.1 = tree e ∧ Derives .expression w e ∧ c.kind = kind := by
  refine (shorter us less .expression).bind ?_
  rintro ⟨e, left⟩ - ⟨w, rfl, derives⟩
  refine Yields.map ((yields_closed kind place e left).imp ?_)
  rintro ⟨e', rest⟩ ⟨c, rfl, rfl, closing⟩
  exact ⟨w, c, e', rfl, rfl, derives, closing⟩

lemma sound_named (less : us.length < ts.length) (identifier : t.kind = .identifier) :
    Yields (readNamed t us) fun p => ∃ w, t :: us = w ++ p.2 ∧ Derives .primary w p.1 := by
  cases us with
  | nil => exact ⟨[t], rfl, .name identifier⟩
  | cons b inner =>
    rw [length_cons] at less
    simp only [readNamed]
    split
    next opening =>
      refine (shorter inner (by omega) .subsetLevel).bind ?_
      rintro ⟨e, left⟩ - ⟨w, rfl, level⟩
      refine Yields.map ((yields_closed .rightBracket .level e left).imp ?_)
      rintro ⟨e', rest⟩ ⟨c, rfl, rfl, closing⟩
      exact ⟨t :: b :: (w ++ [c]), by simp, .subset identifier opening level closing⟩
    next => exact ⟨[t], rfl, .name identifier⟩

lemma sound_primary : Sound .primary ts := by
  rw [Sound]
  cases ts with
  | nil =>
    rw [read_primary_nil]
    exact rfl
  | cons t rest =>
    rw [read_primary_cons]
    have less : rest.length < (t :: rest).length := by simp
    split
    next kind => exact sound_named shorter less kind
    next kind stands => exact ⟨[t], rfl, .number kind stands⟩
    next kind stands => exact ⟨[t], rfl, .string kind stands⟩
    next kind => exact ⟨[t], rfl, .quotedName kind⟩
    next opening =>
      refine (sound_bracketed shorter less .rightParen .grouping .grouping).imp ?_
      rintro ⟨tree, after⟩ ⟨w, c, e, rfl, rfl, inner, closing⟩
      exact ⟨t :: (w ++ [c]), by simp, .grouping opening inner closing⟩
    next opening =>
      refine (sound_bracketed shorter less .rightBrace .braces
        fun e => .call (.name identityName) [e]).imp ?_
      rintro ⟨tree, after⟩ ⟨w, c, e, rfl, rfl, inner, closing⟩
      exact ⟨t :: (w ++ [c]), by simp, .braces opening inner closing⟩
    next => exact rfl

lemma sound_call (primary : Sound .primary ts) : Sound .call ts := by
  rw [Sound, read_call]
  refine primary.bind ?_
  rintro ⟨callee, left⟩ returned ⟨v, split, derives⟩
  refine (sound_calls shorter left (read_shorter returned) (.uncalled derives)).imp ?_
  rintro p ⟨w, rfl, called⟩
  exact ⟨v ++ w, by simpa using split, called⟩

lemma sound_unary (call : Sound .call ts) : Sound .unary ts := by
  rw [Sound]
  have unsigned : Yields (read .call ts) fun p => ∃ w, ts = w ++ p.2 ∧ Derives .unary w p.1 :=
    call.imp fun p ⟨w, split, derives⟩ => ⟨w, split, .unsigned derives⟩
  cases ts with
  | nil => rwa [read_unary_nil]
  | cons t rest =>
    rw [read_unary_cons]
    split
    next sign =>
      refine (shorter rest (by simp) .unary).bind ?_
      rintro ⟨e, left⟩ - ⟨w, rfl, inner⟩
      exact ⟨t :: w, rfl, .sign sign inner⟩
    next => exact unsigned

lemma sound_level (level : Level) (operand : Sound (operandSymbol level) ts) :
    Sound (.level level) ts := by
  rw [Sound, read_level]
  refine operand.bind ?_
  rintro ⟨left, after⟩ returned ⟨v, split, derives⟩
  refine (sound_operations shorter level after (read_shorter returned) (.operand derives)).imp ?_
  rintro p ⟨w, rfl, operated⟩
  exact ⟨v ++ w, by simpa using split, operated⟩

lemma sound_tilde (group : Sound (.level .group) ts) : Sound .tilde ts := by
  rw [Sound, read_tilde]
  refine group.bind ?_
  rintro ⟨left, after⟩ returned ⟨v, rfl, derives⟩
  have fewer := read_shorter returned
  cases after with
  | nil => exact ⟨v, rfl, .tilde derives⟩
  | cons t rest =>
    rw [length_cons] at fewer
    simp only [respondedTo]
    split
    next tilde =>
      refine (shorter rest (by omega) (.level .sum)).bind ?_
      rintro ⟨right, after⟩ - ⟨w, rfl, sum⟩
      exact ⟨v ++ t :: w, by simp, .response derives tilde sum⟩
    next => exact ⟨v, rfl, .tilde derives⟩

lemma sound_expression (tilde : Sound .tilde ts) : Sound .expression ts := by
  rw [Sound, read_expression]
  refine tilde.bind ?_
  rintro ⟨target, after⟩ returned ⟨v, rfl, derives⟩
  have fewer := read_shorter returned
  cases after with
  | nil => exact ⟨v, rfl, .expression derives⟩
  | cons t rest =>
    rw [length_cons] at fewer
    simp only [assignedTo]
    split
    next eq =>
      refine (shorter rest (by omega) (.level .sum)).bind ?_
      rintro ⟨value, left⟩ - ⟨w, rfl, sum⟩
      simp only [assignment]
      split
      next named =>
        -- the target was read as a whole phrase, but being a name it is a primary
        have target := derives.primary_of_isVariable named
        exact ⟨v ++ t :: w, by simp, .assignment target named eq sum⟩
      next => exact rfl
    next => exact ⟨v, rfl, .expression derives⟩

end Steps

/-- What a level may be, by the primary expression that was read. -/
lemma yields_levelOf (derives : Derives .primary w e) :
    Yields (levelOf e) fun level => Derives .subsetLevel w level := by
  cases derives with
  | name kind => exact .levelName kind
  | subset => exact rfl
  | @number t value kind stands =>
    cases value with
    | text s => exact .levelString (.number kind stands)
    | int n => exact rfl
    | float x => exact rfl
  | @string t value kind stands =>
    cases value with
    | text s => exact .levelString (.string kind stands)
    | int n => exact rfl
    | float x => exact rfl
  | quotedName kind => exact .levelQuotedName kind
  | grouping opening inner closing => exact .levelGrouping opening inner closing
  | braces opening inner closing => exact .levelBraces opening inner closing

lemma sound_subsetLevel (primary : Sound .primary ts) : Sound .subsetLevel ts := by
  rw [Sound, read, readLevel]
  refine primary.bind ?_
  rintro ⟨e, left⟩ - ⟨w, split, derives⟩
  exact Yields.map ((yields_levelOf derives).imp fun level found => ⟨w, split, found⟩)

/-- Every function of the parser is sound. -/
lemma read_sound (s : Symbol) (ts : List Token) : Sound s ts :=
  read_induction (fun _ => sound_primary) (fun _ => sound_subsetLevel) (fun _ => sound_call)
    (fun _ => sound_unary) (fun l _ shorter => sound_level shorter l) (fun _ => sound_tilde)
    (fun _ => sound_expression) ts s

end ModelFormula.Expr
