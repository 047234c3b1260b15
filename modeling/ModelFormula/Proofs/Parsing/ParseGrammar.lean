import ModelFormula.Proofs.Parsing.ParseComplete
import ModelFormula.Proofs.Parsing.ParseSound
import ModelFormula.Token.Scan

/-!
# The parser never looks behind the end mark

No function of the parser takes an end mark, so what it reads from tokens up to an end mark is the
same whatever stands behind the mark, and the mark is still there when it returns.
-/
namespace ModelFormula.Expr

open List Parse

variable {mark : Token} {β γ : Type} {x : List Token → Except Fault (β × List Token)}
  {w : List Token}

/-- Whatever stands behind the mark, the outcome is the same, and the mark is left with it. -/
def Settled (mark : Token) (x : List Token → Except Fault (β × List Token)) (w : List Token) :
    Prop :=
  ∃ r : Except Fault (β × List Token), (∀ b s, r = .ok (b, s) → s <:+ w) ∧
    ∀ behind, x (w ++ mark :: behind) = r.map fun p => (p.1, p.2 ++ mark :: behind)

lemma Settled.congr {x y : List Token → Except Fault (β × List Token)}
    (settled : Settled mark y v) (suffix : v <:+ w)
    (eq : ∀ behind, x (w ++ mark :: behind) = y (v ++ mark :: behind)) : Settled mark x w := by
  obtain ⟨r, left, reads⟩ := settled
  exact ⟨r, fun b s returned => (left b s returned).trans suffix,
    fun behind => (eq behind).trans (reads behind)⟩

lemma Settled.returned (b : β) (w : List Token) : Settled mark (fun us => .ok (b, us)) w := by
  refine ⟨.ok (b, w), ?_, fun _ => rfl⟩
  intro b' s returned
  cases returned
  exact suffix_refl w

lemma Settled.failed (fault : Fault) (w : List Token) :
    Settled mark (fun _ => (.error fault : Except Fault (β × List Token))) w := by
  refine ⟨.error fault, ?_, fun _ => rfl⟩
  intro b s returned
  cases returned

/-- What follows a settled outcome need only be settled on what that leaves. -/
lemma Settled.bind {k : β → List Token → Except Fault (γ × List Token)} (first : Settled mark x w)
    (next : ∀ b s, x (w ++ [mark]) = .ok (b, s ++ [mark]) → Settled mark (k b) s) :
    Settled mark (fun us => (x us).bind fun p => k p.1 p.2) w := by
  -- a fault is the outcome of the whole; otherwise the second reader begins in front of the mark
  obtain ⟨r, left, reads⟩ := first
  cases r with
  | error fault =>
    refine (Settled.failed fault w).congr (suffix_refl w) ?_
    intro behind
    simp only [reads behind]
    rfl
  | ok p =>
    obtain ⟨b, s⟩ := p
    refine (next b s (reads [])).congr (left b s rfl) ?_
    intro behind
    simp only [reads behind]
    rfl

lemma Settled.map (settled : Settled mark x w) (f : β → γ) :
    Settled mark (fun us => (x us).map fun p => (f p.1, p.2)) w := by
  refine (settled.bind fun b s _ => Settled.returned (f b) s).congr (suffix_refl w) ?_
  intro behind
  cases x (w ++ mark :: behind) <;> rfl

/-- A reader that takes the first token and goes on behind it, or leaves it to another. -/
lemma Settled.look {x z : List Token → Except Fault (β × List Token)}
    {y : Token → List Token → Except Fault (β × List Token)} [DecidablePred P]
    (reads : ∀ t us, x (t :: us) = if P t then y t us else z (t :: us)) (atMark : ¬ P mark)
    (taken : ∀ t v, w = t :: v → P t → Settled mark (y t) v) (other : Settled mark z w) :
    Settled mark x w := by
  cases w with
  | nil => exact other.congr (suffix_refl _) fun _ => (reads mark _).trans (if_neg atMark)
  | cons t v =>
    by_cases own : P t
    · exact (taken t v rfl own).congr (suffix_cons t v) fun _ => (reads t _).trans (if_pos own)
    · exact other.congr (suffix_refl _) fun _ => (reads t _).trans (if_neg own)

section Steps

variable (isMark : mark.kind = .endOfFormula)

lemma length_lt_of_read (returned : read s (v ++ [mark]) = .ok (e, left ++ [mark])) :
    left.length < v.length := by
  simpa using read_shorter returned

include isMark

lemma settled_closed (kind : Token.Kind) (place : Closing) (other : kind ≠ .endOfFormula)
    (e : Expr) (v : List Token) : Settled mark (closed kind place e) v := by
  refine Settled.look (y := fun _ us => .ok (e, us)) (z := fun _ => .error (.missingClosing place))
    (P := (·.kind = kind)) (fun _ _ => rfl) (fun eq => other (eq.symm.trans isMark)) ?_
    (.failed _ v)
  exact fun _ v _ _ => .returned e v

variable (shorter : ∀ v : List Token, v.length < w.length → ∀ s, Settled mark (read s) v)
include shorter

lemma settled_assignedTo (target : Expr) (v : List Token) (less : v.length < w.length) :
    Settled mark (assignedTo target) v := by
  refine Settled.look (z := fun us => .ok (target, us)) (P := (·.kind = .equal)) (fun _ _ => rfl)
    (by simp [isMark]) ?_ (.returned target v)
  rintro t v rfl _
  rw [length_cons] at less
  refine (shorter v (by omega) (.level .sum)).bind (k := assignment target) fun value s _ => ?_
  by_cases named : isVariable target
  · exact (Settled.returned (.assign target value) s).congr (suffix_refl s)
      fun behind => by simp [assignment, named]
  · exact (Settled.failed .invalidTarget s).congr (suffix_refl s)
      fun behind => by simp [assignment, named]

lemma settled_respondedTo (left : Expr) (v : List Token) (less : v.length < w.length) :
    Settled mark (respondedTo left) v := by
  refine Settled.look (z := fun us => .ok (left, us)) (P := (·.kind = .tilde)) (fun _ _ => rfl)
    (by simp [isMark]) ?_ (.returned left v)
  rintro t v rfl _
  rw [length_cons] at less
  exact (shorter v (by omega) (.level .sum)).bind (k := fun e us => .ok (Expr.binary left t e, us))
    fun e s _ => .returned _ s

lemma settled_operations (l : Level) (left : Expr) (v : List Token) (less : v.length < w.length) :
    Settled mark (fun us => front (Parse.operations l left us)) v := by
  induction v using length_induction generalizing left with
  | step v ih =>
    refine Settled.look (z := fun us => .ok (left, us)) (P := (·.kind ∈ l.operators))
      (front_operations_cons l left) ?_ ?_ (.returned left v)
    · -- the mark is no operator, so the loop stops in front of it
      rw [isMark]
      cases l <;> decide
    · rintro t v rfl _
      rw [length_cons] at less
      refine (shorter v (by omega) (operandSymbol l)).bind (k := fun right us =>
        front (Parse.operations l (.binary left t right) us)) fun right s returned => ?_
      have fewer := length_lt_of_read returned
      exact ih s (by rw [length_cons]; omega) _ (by omega)

lemma settled_someArguments (v : List Token) (less : v.length < w.length) :
    Settled mark (fun us => frontArgs (Parse.someArguments us)) v := by
  induction v using length_induction with
  | step v ih =>
    refine ((shorter v less .expression).bind (k := argumentsAfter) ?_).congr (suffix_refl v)
      fun behind => frontArgs_someArguments _
    intro first s returned
    have fewer := length_lt_of_read returned
    -- the mark is neither a comma nor a bracket, so a call that is still open fails at it
    cases s with
    | nil =>
      refine (Settled.failed (.missingClosing .arguments) []).congr (suffix_refl _) ?_
      intro behind
      simp [argumentsAfter, isMark]
    | cons t s =>
      rw [length_cons] at fewer
      by_cases comma : t.kind = .comma
      · refine ((ih s (by omega) (by omega)).map (first :: ·)).congr (suffix_cons t s) ?_
        intro behind
        simp only [argumentsAfter, cons_append, comma, if_true]
        rfl
      · by_cases closing : t.kind = .rightParen
        · refine (Settled.returned [first] s).congr (suffix_cons t s) ?_
          intro behind
          simp [argumentsAfter, closing]
        · refine (Settled.failed (.missingClosing .arguments) _).congr (suffix_refl _) ?_
          intro behind
          simp [argumentsAfter, comma, closing]

lemma settled_arguments (v : List Token) (less : v.length < w.length) :
    Settled mark (fun us => frontArgs (Parse.arguments us)) v :=
  Settled.look (y := fun _ us => .ok ([], us)) (P := (·.kind = .rightParen)) frontArgs_arguments_cons
    (by simp [isMark]) (fun _ v _ _ => .returned [] v) (settled_someArguments isMark shorter v less)

lemma settled_calls (callee : Expr) (v : List Token) (less : v.length < w.length) :
    Settled mark (fun us => front (Parse.calls callee us)) v := by
  induction v using length_induction generalizing callee with
  | step v ih =>
    refine Settled.look (z := fun us => .ok (callee, us)) (P := (·.kind = .leftParen))
      (front_calls_cons callee) (by simp [isMark]) ?_ (.returned callee v)
    rintro t v rfl _
    rw [length_cons] at less
    refine (settled_arguments isMark shorter v (by omega)).bind (k := fun args us =>
      front (Parse.calls (.call callee args) us)) fun args s returned => ?_
    have fewer : s.length < v.length := by simpa using frontArgs_shorter returned
    exact ih s (by rw [length_cons]; omega) _ (by omega)

lemma settled_bracketed (kind : Token.Kind) (place : Closing) (other : kind ≠ .endOfFormula)
    (tree : Expr → Expr) (v : List Token) (less : v.length < w.length) :
    Settled mark (bracketed kind place tree) v :=
  (shorter v less .expression).bind fun e s _ =>
    (settled_closed isMark kind place other e s).map tree

lemma settled_named (t : Token) (v : List Token) (less : v.length < w.length) :
    Settled mark (readNamed t) v := by
  refine Settled.look (z := fun us => .ok (.name t, us)) (P := (·.kind = .leftBracket))
    (fun _ _ => rfl) (by simp [isMark]) ?_ (.returned _ v)
  rintro b v rfl _
  rw [length_cons] at less
  refine (shorter v (by omega) .subsetLevel).bind (k := fun e us =>
    (closed .rightBracket .level e us).map fun q => (Expr.subset t q.1, q.2)) fun e s _ => ?_
  exact (settled_closed isMark .rightBracket .level (by decide) e s).map _

lemma settled_primary : Settled mark (read .primary) w := by
  cases w with
  | nil =>
    refine (Settled.failed (.unexpectedToken mark.lexeme) []).congr (suffix_refl _) ?_
    intro behind
    simp [read_primary_cons, isMark]
  | cons t v =>
    have less : v.length < (t :: v).length := by simp
    -- the reader behind the first token, chosen by the kind of that token
    have step {x : List Token → Outcome} (settled : Settled mark x v)
        (reads : ∀ us, read .primary (t :: us) = x us) : Settled mark (read .primary) (t :: v) :=
      settled.congr (suffix_cons t v) fun behind => reads _
    have refused (reads : ∀ us, read .primary (t :: us) = .error (.unexpectedToken t.lexeme)) :
        Settled mark (read .primary) (t :: v) :=
      step (Settled.failed _ v) reads
    cases kind : t.kind with
    | identifier =>
      exact step (settled_named isMark shorter t v less) fun us => by
        simp [read_primary_cons, kind]
    | number =>
      cases stands : t.literal with
      | some value =>
        exact step (Settled.returned (.literal value none) v) fun us => by
          simp [read_primary_cons, kind, stands]
      | none => exact refused fun us => by simp [read_primary_cons, kind, stands]
    | string =>
      cases stands : t.literal with
      | some value =>
        exact step (Settled.returned (.literal value (some t.lexeme)) v) fun us => by
          simp [read_primary_cons, kind, stands]
      | none => exact refused fun us => by simp [read_primary_cons, kind, stands]
    | quotedName =>
      exact step (Settled.returned (.quotedName t) v) fun us => by simp [read_primary_cons, kind]
    | leftParen =>
      exact step (settled_bracketed isMark shorter .rightParen .grouping (by decide) .grouping v less)
        fun us => by simp [read_primary_cons, kind]
    | leftBrace =>
      exact step (settled_bracketed isMark shorter .rightBrace .braces (by decide)
        (fun e => .call (.name identityName) [e]) v less) fun us => by simp [read_primary_cons, kind]
    | _ => exact refused fun us => by simp [read_primary_cons, kind]

lemma settled_call (primary : Settled mark (read .primary) w) : Settled mark (read .call) w := by
  refine (primary.bind (k := fun callee us => front (Parse.calls callee us)) ?_).congr
    (suffix_refl w) fun behind => read_call _
  intro callee s returned
  exact settled_calls isMark shorter callee s (length_lt_of_read returned)

lemma settled_unary (call : Settled mark (read .call) w) : Settled mark (read .unary) w := by
  refine Settled.look (P := fun t => t.kind = .plus ∨ t.kind = .minus) read_unary_cons
    (by simp [isMark]) ?_ call
  rintro t v rfl _
  exact (shorter v (by simp) .unary).bind (k := fun e us => .ok (Expr.unary t e, us)) fun e s _ =>
    .returned _ s

lemma settled_level (l : Level) (operand : Settled mark (read (operandSymbol l)) w) :
    Settled mark (read (.level l)) w := by
  refine (operand.bind (k := fun left us => front (Parse.operations l left us)) ?_).congr
    (suffix_refl w) fun behind => read_level l _
  intro left s returned
  exact settled_operations isMark shorter l left s (length_lt_of_read returned)

lemma settled_tilde (group : Settled mark (read (.level .group)) w) :
    Settled mark (read .tilde) w := by
  refine (group.bind (k := respondedTo) ?_).congr (suffix_refl w) fun behind => read_tilde _
  intro left s returned
  exact settled_respondedTo isMark shorter left s (length_lt_of_read returned)

lemma settled_expression (tilde : Settled mark (read .tilde) w) :
    Settled mark (read .expression) w := by
  refine (tilde.bind (k := assignedTo) ?_).congr (suffix_refl w) fun behind => read_expression _
  intro target s returned
  exact settled_assignedTo isMark shorter target s (length_lt_of_read returned)

end Steps

lemma settled_subsetLevel (primary : Settled mark (read .primary) w) :
    Settled mark (read .subsetLevel) w := by
  refine (primary.bind (k := fun e us => (levelOf e).map (·, us)) ?_).congr (suffix_refl w)
    fun behind => rfl
  intro e s _
  cases found : levelOf e with
  | error fault => exact (Settled.failed fault s).congr (suffix_refl s) fun behind => rfl
  | ok level => exact (Settled.returned level s).congr (suffix_refl s) fun behind => rfl

/-- No function of the parser looks behind the mark. -/
lemma read_settled (isMark : mark.kind = .endOfFormula) (s : Symbol) (w : List Token) :
    Settled mark (read s) w :=
  read_induction (P := fun s w => Settled mark (read s) w)
    (fun _ => settled_primary isMark) (fun _ => settled_subsetLevel)
    (fun _ => settled_call isMark) (fun _ => settled_unary isMark)
    (fun l _ shorter => settled_level isMark shorter l) (fun _ => settled_tilde isMark)
    (fun _ => settled_expression isMark) w s

/-!
### The parser and the grammar

Reading the tokens of a formula up to its end mark: what the parser returns is derived by the grammar,
and what the grammar derives is returned.
-/

lemma stops_mark (isMark : mark.kind = .endOfFormula) (behind : List Token) :
    Stops .expression (mark :: behind) :=
  Stops.cons (by rw [isMark]; decide)

/-- What is read up to the mark: a fault of parsing, or a tree that the tokens before the rest
derive. The second holds of the outcome whatever stands behind the mark. -/
lemma read_upTo_mark (isMark : mark.kind = .endOfFormula) (s : Symbol) (w : List Token) :
    ∃ r : Outcome,
      (∀ behind, read s (w ++ mark :: behind) = r.map fun p => (p.1, p.2 ++ mark :: behind)) ∧
      Yields r fun p => ∃ taken, w = taken ++ p.2 ∧ Derives s taken p.1 := by
  obtain ⟨r, _, reads⟩ := read_settled isMark s w
  refine ⟨r, reads, ?_⟩
  -- nothing behind the mark matters, so soundness is used with nothing there
  have sound := read_sound s (w ++ [mark])
  rw [Sound, reads []] at sound
  cases r with
  | error fault => exact sound
  | ok p =>
    obtain ⟨taken, split, derives⟩ := sound
    refine ⟨taken, ?_, derives⟩
    rw [← List.append_assoc] at split
    exact List.append_cancel_right split

/-- All tokens before the mark are taken exactly if they derive the tree. -/
lemma read_all_iff (isMark : mark.kind = .endOfFormula) (w : List Token) (e : Expr) :
    read .expression (w ++ [mark]) = .ok (e, [mark]) ↔ Derives .expression w e := by
  constructor
  · intro returned
    have sound := read_sound .expression (w ++ [mark])
    rw [Sound, returned] at sound
    obtain ⟨taken, split, derives⟩ := sound
    rw [List.append_cancel_right split]
    exact derives
  · intro derives
    exact (completes derives).read [mark] (stops_mark isMark [])

/-- A call is a phrase of every level. -/
lemma Derives.level_of_call (l : Level) (inner : Derives .call w e) : Derives (.level l) w e := by
  have power : Derives (.level .power) w e := .operand (.unsigned inner)
  have interaction : Derives (.level .interaction) w e := .operand power
  have product : Derives (.level .product) w e := .operand interaction
  have sum : Derives (.level .sum) w e := .operand product
  have comparison : Derives (.level .comparison) w e := .operand sum
  cases l with
  | power => exact power
  | interaction => exact interaction
  | product => exact product
  | sum => exact sum
  | comparison => exact comparison
  | group => exact .operand comparison

lemma Derives.level_of_primary (l : Level) (inner : Derives .primary w e) :
    Derives (.level l) w e :=
  level_of_call l (.uncalled inner)

/-- The parser ends on all tokens, since it is a total function. On tokens that end in an end mark it
never looks behind the mark: the outcome is the same whatever stands there. It is a fault of parsing
or a tree that the grammar derives from the tokens that were taken. Conversely, tokens that derive a
tree are read as that tree, with nothing left but the mark, so no tokens derive two trees. -/
theorem parseFront_matches_grammar (isMark : mark.kind = .endOfFormula) (w : List Token) :
    (∃ r : Outcome,
      (∀ behind, parseFront (w ++ mark :: behind) = r.map fun p => (p.1, p.2 ++ mark :: behind)) ∧
      ((∃ fault, r = .error fault ∧ fault.category = .parse) ∨
        ∃ e taken left, r = .ok (e, left) ∧ w = taken ++ left ∧ Derives .expression taken e)) ∧
    (∀ e, parseFront (w ++ [mark]) = .ok (e, [mark]) ↔ Derives .expression w e) ∧
    (∀ e, Derives .expression w e → parse (w ++ [mark]) = .ok e) ∧
    (∀ e e', Derives .expression w e → Derives .expression w e' → e = e') := by
  refine ⟨?_, read_all_iff isMark w, ?_, fun e e' => Derives.unique⟩
  · obtain ⟨r, reads, yields⟩ := read_upTo_mark isMark .expression w
    refine ⟨r, reads, ?_⟩
    cases r with
    | error fault => exact .inl ⟨fault, rfl, yields⟩
    | ok p =>
      obtain ⟨taken, split, derives⟩ := yields
      exact .inr ⟨p.1, taken, p.2, rfl, split, derives⟩
  · intro e derives
    have returned : parseFront (w ++ [mark]) = .ok (e, [mark]) := (read_all_iff isMark w e).mpr derives
    rw [parse, returned]
    rfl

/-- The tokens of `y ~ a + b`: the tilde takes the whole sum as its right side. -/
theorem parseFront_matches_grammar_response :
    let y : Token := ⟨.identifier, "y", none⟩
    let a : Token := ⟨.identifier, "a", none⟩
    let b : Token := ⟨.identifier, "b", none⟩
    let tilde : Token := ⟨.tilde, "~", none⟩
    Token.endMark.kind = .endOfFormula ∧
      parseFront ([y, tilde, a, Token.plusSign, b] ++ [Token.endMark]) =
        .ok (.binary (.name y) tilde (.binary (.name a) Token.plusSign (.name b)),
          [Token.endMark]) := by
  intro y a b tilde
  have left : Derives (.level .group) [y] (.name y) := Derives.level_of_primary .group (.name rfl)
  have first : Derives (.level .sum) [a] (.name a) := Derives.level_of_primary .sum (.name rfl)
  have second : Derives (.level .product) [b] (.name b) :=
    Derives.level_of_primary .product (.name rfl)
  have right : Derives (.level .sum) ([a] ++ Token.plusSign :: [b])
      (.binary (.name a) Token.plusSign (.name b)) := .operation first (by decide) second
  have whole := Derives.expression (.response left (t := tilde) rfl right)
  exact ⟨rfl, ((parseFront_matches_grammar rfl _).2.1 _).mpr whole⟩

end ModelFormula.Expr
