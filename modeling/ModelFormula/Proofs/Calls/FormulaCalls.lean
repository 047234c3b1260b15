import ModelFormula.Proofs.Numbers.FloatProducts
import ModelFormula.Proofs.Parsing.Leftover

/-!
# The calls of a formula

A literal in the tree of a formula is a whole number, a text or the fraction nearest to a numeral,
and each of these equals itself.
-/
namespace ModelFormula

open List

variable {rest after : List Char}

/-! ### Literals of a text -/

lemma Decimal.ofBits_ne_nan (small : n < 2047 * 2 ^ 52) :
    Float.ofBits n.toUInt64 ≠ Float.nan := by
  intro undefined
  have bits := toNat_toBits_ofBits small
  rw [undefined, show Float.nan.toBits.toNat = 0x7ff8000000000000 by decide +kernel] at bits
  omega

/-- A numeral is read as a fraction or, if it is too large, as infinity. -/
lemma Decimal.nearest_ne_nan (num den : Nat) : nearest num den ≠ Float.nan := by
  unfold nearest
  split
  · decide +kernel
  -- how the mantissa and the exponent were chosen does not matter, only the bounds on the bits
  extract_lets _ _ _ mantissa biased bits
  simp only [Nat.pow_eq]
  split
  next subnormal =>
    have bound : mantissa < 2047 * 2 ^ 52 := lt_trans subnormal (by decide)
    exact ofBits_ne_nan bound
  split
  · decide +kernel
  next finite => exact ofBits_ne_nan (Nat.not_le.mp finite)

namespace Token

variable {t : Token} {v : Literal}

lemma fractionLiteral_self (read : fractionLiteral whole decimals = .ok v) : v == v := by
  rw [fractionLiteral] at read
  split at read
  · cases read
    exact Float.beq_self_iff.mpr (Decimal.nearest_ne_nan _ _)
  · cases read

lemma integerLiteral_self {digits : List Char} (read : integerLiteral digits = .ok v) :
    (v == v) := by
  rw [integerLiteral] at read
  split at read
  · split at read
    · cases read
      exact beq_self_eq_true (α := Int) _
    · cases read
  · cases read

/-- A token that is made of a literal stands for it. -/
lemma literal_read {x : Except Fault Literal} {make : Literal → Token × List Char}
    {after : List Char} (own : ∀ w, (make w).1.literal = some w)
    (scanned : (x >>= fun w => pure (make w)) = .ok (t, after)) (stands : t.literal = some v) :
    x = .ok v := by
  obtain ⟨w, read, made⟩ := bind_eq_ok.mp scanned
  have token : (make w).1 = t := congrArg Prod.fst (Except.ok.inj made)
  rw [← token, own, Option.some.injEq] at stands
  rw [read, stands]

lemma number_literal {c : Char}
    (scanned : number c rest = .ok (t, after)) (stands : t.literal = some v) : v == v := by
  simp only [number] at scanned
  split at scanned
  · split at scanned
    · exact fractionLiteral_self (literal_read (fun _ => rfl) scanned stands)
    · exact integerLiteral_self (literal_read (fun _ => rfl) scanned stands)
  · exact integerLiteral_self (literal_read (fun _ => rfl) scanned stands)

lemma dot_literal (scanned : dot rest = .ok (t, after))
    (stands : t.literal = some v) : v == v := by
  simp only [dot] at scanned
  split at scanned
  · split at scanned
    · exact fractionLiteral_self (literal_read (fun _ => rfl) scanned stands)
    · cases scanned
      cases stands
  · cases scanned
    cases stands

/-- A token stands for a number or a text that equals itself. -/
lemma next_literal (scanned : next c rest = .ok (t, after)) (stands : t.literal = some v) :
    (v == v) := by
  simp only [next] at scanned
  split at scanned
  · simp only [quotedString] at scanned
    split at scanned
    · cases scanned
      cases stands
      exact beq_self_eq_true (α := String) _
    · cases scanned
  split at scanned
  · simp only [backQuoted] at scanned
    split at scanned <;> cases scanned
    cases stands
  split at scanned
  · exact dot_literal scanned stands
  split at scanned
  · cases scanned
    cases stands
  · -- an operator of one or two characters
    split at scanned
    · split at scanned <;> cases scanned <;> cases stands
    · cases scanned
      cases stands
  · split at scanned
    · exact number_literal scanned stands
    split at scanned
    · cases scanned
      cases stands
    · cases scanned

lemma tokens_literal (scanned : tokens cs = .ok ts) (mem : t ∈ ts) (stands : t.literal = some v) :
    (v == v) := by
  fun_induction tokens cs generalizing ts with
  | case1 =>
    cases scanned
    cases mem
  | case2 c rest blank ih => exact ih scanned mem
  | case3 => cases scanned
  | case4 c rest _ first after read ih =>
    cases others : tokens after with
    | error fault =>
      rw [others] at scanned
      cases scanned
    | ok us =>
      rw [others] at scanned
      cases scanned
      rcases mem_cons.mp mem with rfl | later
      · exact next_literal read stands
      · exact ih others later

lemma scan_literal (scanned : scan code intercept = .ok ts) (mem : t ∈ ts)
    (stands : t.literal = some v) : v == v := by
  obtain ⟨us, read, _, rfl⟩ := scan_inv scanned
  -- the tokens that a scan adds itself are the end, and `1 +` if there is to be an intercept
  have marked : t ∈ us ++ [endMark] → v == v := by
    intro inside
    rcases mem_append.mp inside with inside | mark
    · exact tokens_literal read inside stands
    · obtain rfl := mem_singleton.mp mark
      cases stands
  cases intercept with
  | false => exact marked mem
  | true =>
    rcases mem_withIntercept mem with rfl | rfl | inside
    · cases stands
      rfl
    · cases stands
    · exact marked inside

end Token

/-! ### Literals of a tree -/

namespace Expr

mutual

/-- A tree and all trees inside it. -/
def subtrees : Expr → List Expr
  | assign target value => assign target value :: (subtrees target ++ subtrees value)
  | grouping e => grouping e :: subtrees e
  | binary l o r => binary l o r :: (subtrees l ++ subtrees r)
  | unary o e => unary o e :: subtrees e
  | call f args => call f args :: (subtrees f ++ subtreesAll args)
  | name t => [name t]
  | subset t level => subset t level :: subtrees level
  | quotedName t => [quotedName t]
  | literal v x => [literal v x]

def subtreesAll : List Expr → List Expr
  | [] => []
  | e :: es => subtrees e ++ subtreesAll es

end

lemma mem_subtreesAll : d ∈ subtreesAll es ↔ ∃ e ∈ es, d ∈ e.subtrees := by
  induction es with
  | nil => simp [subtreesAll]
  | cons e es ih => simp [subtreesAll, ih]

lemma self_mem_subtrees (e : Expr) : e ∈ e.subtrees := by
  cases e <;> simp [subtrees]

mutual

theorem subtrees_trans : ∀ (e : Expr) {d c : Expr}, d ∈ e.subtrees → c ∈ d.subtrees → c ∈ e.subtrees
  | assign target value, d, c, outer, inner => by
    rcases mem_cons.mp outer with rfl | deeper
    · exact inner
    rcases mem_append.mp deeper with left | right
    · exact mem_cons_of_mem _ (mem_append_left _ (subtrees_trans target left inner))
    · exact mem_cons_of_mem _ (mem_append_right _ (subtrees_trans value right inner))
  | grouping e, d, c, outer, inner | unary o e, d, c, outer, inner => by
    rcases mem_cons.mp outer with rfl | deeper
    · exact inner
    · exact mem_cons_of_mem _ (subtrees_trans e deeper inner)
  | binary l o r, d, c, outer, inner => by
    rcases mem_cons.mp outer with rfl | deeper
    · exact inner
    rcases mem_append.mp deeper with left | right
    · exact mem_cons_of_mem _ (mem_append_left _ (subtrees_trans l left inner))
    · exact mem_cons_of_mem _ (mem_append_right _ (subtrees_trans r right inner))
  | call f args, d, c, outer, inner => by
    rcases mem_cons.mp outer with rfl | deeper
    · exact inner
    rcases mem_append.mp deeper with left | right
    · exact mem_cons_of_mem _ (mem_append_left _ (subtrees_trans f left inner))
    · exact mem_cons_of_mem _ (mem_append_right _ (subtreesAll_trans args right inner))
  | name t, d, c, outer, inner | quotedName t, d, c, outer, inner
  | literal v x, d, c, outer, inner => by
    rw [subtrees, mem_singleton] at outer
    exact outer ▸ inner
  | subset t level, d, c, outer, inner => by
    rcases mem_cons.mp outer with rfl | deeper
    · exact inner
    · exact mem_cons_of_mem _ (subtrees_trans level deeper inner)

theorem subtreesAll_trans : ∀ (es : List Expr) {d c : Expr}, d ∈ subtreesAll es → c ∈ d.subtrees →
    c ∈ subtreesAll es
  | [], d, c, outer, inner => by cases outer
  | e :: es, d, c, outer, inner => by
    rcases mem_append.mp outer with first | later
    · exact mem_append_left _ (subtrees_trans e first inner)
    · exact mem_append_right _ (subtreesAll_trans es later inner)

end

/-- All literals in the tree equal themselves. -/
def Ordered (e : Expr) : Prop := ∀ v x, literal v x ∈ e.subtrees → (v == v) = true

/-- The literals of a derived tree are those of the tokens, or names that stand for texts. -/
lemma Derives.ordered {s : Symbol} {w : List Token} {e : Expr} (derives : Derives s w e)
    (tokens : ∀ t ∈ w, ∀ v, t.literal = some v → v == v) : e.Ordered := by
  -- by the rules of the grammar: what a rule joins is ordered if its parts are
  induction derives with
  | expression _ ih | tilde _ ih | operand _ ih | unsigned _ ih | uncalled _ ih | levelString _ ih =>
    exact ih tokens
  | assignment _ _ _ _ ihl ihr | response _ _ _ ihl ihr | operation _ _ _ ihl ihr =>
    simp only [forall_mem_append, forall_mem_cons] at tokens
    intro v x inside
    simp only [subtrees, mem_cons, reduceCtorEq, false_or, mem_append] at inside
    exact inside.elim (ihl tokens.1 v x) (ihr tokens.2.2 v x)
  | sign _ _ ih =>
    intro v x inside
    exact ih (forall_mem_cons.mp tokens).2 v x (by simpa [subtrees] using inside)
  | emptyCall _ _ _ ih =>
    intro v x inside
    exact ih (forall_mem_append.mp tokens).1 v x (by simpa [subtrees, subtreesAll] using inside)
  | call _ _ _ _ _ _ ihf ihe ihm =>
    simp only [forall_mem_append, forall_mem_cons] at tokens
    obtain ⟨callee, _, ⟨first, others⟩, _⟩ := tokens
    intro v x inside
    simp only [subtrees, subtreesAll, mem_cons, reduceCtorEq, false_or, mem_append] at inside
    rcases inside with inside | inside | inside
    · exact ihf callee v x inside
    · exact ihe first v x inside
    · obtain ⟨d, among, inside⟩ := mem_subtreesAll.mp inside
      obtain ⟨a, mem, rfl⟩ := mem_map.mp among
      refine ihm a mem (fun t own => others t ?_) v x inside
      exact mem_flatMap.mpr ⟨a, mem, mem_cons_of_mem _ own⟩
  | name | quotedName | levelQuotedName =>
    intro v x inside
    simp [subtrees] at inside
  | subset _ _ _ _ ih =>
    simp only [forall_mem_append, forall_mem_cons] at tokens
    intro v x inside
    exact ih tokens.2.2.1 v x (by simpa [subtrees] using inside)
  | number _ stands | string _ stands =>
    intro v x inside
    simp only [subtrees, mem_singleton, literal.injEq] at inside
    exact tokens _ mem_cons_self v (inside.1 ▸ stands)
  | levelName =>
    intro v x inside
    simp only [subtrees, mem_singleton, literal.injEq] at inside
    rw [inside.1]
    exact beq_self_eq_true (α := String) _
  | grouping _ _ _ ih | levelGrouping _ _ _ ih | braces _ _ _ ih | levelBraces _ _ _ ih =>
    simp only [forall_mem_append, forall_mem_cons] at tokens
    intro v x inside
    exact ih tokens.2.1 v x (by simpa [subtrees, subtreesAll] using inside)

lemma parse_derives (parsed : parse ts = .ok e) :
    ∃ w left, ts = w ++ left ∧ Derives .expression w e := by
  have sound := read_sound .expression ts
  rw [Sound, ← parseFront_eq_read] at sound
  rw [parse] at parsed
  cases returned : parseFront ts with
  | error fault =>
    rw [returned] at parsed
    cases parsed
  | ok p =>
    rw [returned] at parsed sound
    cases parsed
    obtain ⟨w, split, derives⟩ := sound
    exact ⟨w, p.2, split, derives⟩

end Expr

/-! ### Trees of calls -/

namespace CallExpr

mutual

/-- The literals in a tree. -/
def values : CallExpr → List Literal
  | unary _ e => values e
  | binary _ l r => values l ++ values r
  | name _ => []
  | value v _ => [v]
  | call _ args named => valuesAll args ++ valuesNamed named

def valuesAll : List CallExpr → List Literal
  | [] => []
  | e :: es => values e ++ valuesAll es

def valuesNamed : List (String × CallExpr) → List Literal
  | [] => []
  | (_, e) :: es => values e ++ valuesNamed es

end

lemma mem_valuesAll : v ∈ valuesAll es ↔ ∃ e ∈ es, v ∈ e.values := by
  induction es with
  | nil => simp [valuesAll]
  | cons e es ih => simp [valuesAll, ih]

lemma mem_valuesNamed : v ∈ valuesNamed es ↔ ∃ p ∈ es, v ∈ p.2.values := by
  induction es with
  | nil => simp [valuesNamed]
  | cons p es ih => simp [valuesNamed, ih]

/-- The literals of all arguments read so far have the property. -/
structure ValuedArguments (P : Literal → Prop) (plain : List CallExpr)
    (named : List (String × CallExpr)) : Prop where
  keyed : KeyedArguments plain named
  plain : ∀ e ∈ plain, ∀ v ∈ e.values, P v
  named : ∀ p ∈ named, ∀ v ∈ p.2.values, P v

mutual

/-- A call takes its literals from the formula, and its keywords are distinct. -/
theorem values_of_ofExpr {P : Literal → Prop} : ∀ (e : Expr) {c : CallExpr},
    (∀ v x, .literal v x ∈ e.subtrees → P v) → ofExpr e = .ok c → c.Keyed ∧ ∀ v ∈ c.values, P v
  | .grouping e, c, literals, read => by
    rw [ofExpr] at read
    exact values_of_ofExpr e (fun v x inside => literals v x (mem_cons_of_mem _ inside)) read
  | .binary l op r, c, literals, read => by
    rw [ofExpr] at read
    split at read
    · obtain ⟨l', left, read⟩ := bind_eq_ok.mp read
      obtain ⟨r', right, read⟩ := bind_eq_ok.mp read
      cases read
      obtain ⟨keyed, values⟩ := values_of_ofExpr l (fun v x inside =>
        literals v x (mem_cons_of_mem _ (mem_append_left _ inside))) left
      obtain ⟨keyed', values'⟩ := values_of_ofExpr r (fun v x inside =>
        literals v x (mem_cons_of_mem _ (mem_append_right _ inside))) right
      exact ⟨⟨keyed, keyed'⟩, forall_mem_append.mpr ⟨values, values'⟩⟩
    · cases read
  | .unary op e, c, literals, read => by
    rw [ofExpr] at read
    split at read
    · obtain ⟨e', inner, read⟩ := bind_eq_ok.mp read
      cases read
      have valued := values_of_ofExpr e (fun v x inside =>
        literals v x (mem_cons_of_mem _ inside)) inner
      exact valued
    · cases read
  | .call f args, c, literals, read => by
    rw [ofExpr] at read
    obtain ⟨⟨plain, named⟩, given, read⟩ := bind_eq_ok.mp read
    obtain ⟨name, callee, read⟩ := bind_eq_ok.mp read
    cases read
    have valued := values_of_ofArguments args (fun v x inside =>
      literals v x (mem_cons_of_mem _ (mem_append_right _ inside)))
      ⟨⟨by simp, by simp, by simp⟩, by simp, by simp⟩ given
    refine ⟨⟨(keyedAll_iff plain).mpr valued.keyed.plain, valued.keyed.distinct,
      (keyedNamed_iff named).mpr valued.keyed.named⟩, fun v inside => ?_⟩
    rcases mem_append.mp inside with inside | inside
    · obtain ⟨e, mem, inside⟩ := mem_valuesAll.mp inside
      exact valued.plain e mem v inside
    · obtain ⟨p, mem, inside⟩ := mem_valuesNamed.mp inside
      exact valued.named p mem v inside
  | .name _, c, _, read | .subset _ _, c, _, read | .quotedName _, c, _, read => by
    rw [ofExpr] at read
    cases read
    exact ⟨trivial, by simp [values]⟩
  | .literal v x, c, literals, read => by
    rw [ofExpr] at read
    cases read
    exact ⟨trivial, by simpa [values] using literals v x mem_cons_self⟩
  | .assign _ _, c, _, read => by
    rw [ofExpr] at read
    cases read

theorem values_of_ofArguments : ∀ (args : List Expr)
    {plain plain' : List CallExpr} {named named' : List (String × CallExpr)},
    (∀ v x, .literal v x ∈ Expr.subtreesAll args → P v) → ValuedArguments P plain named →
    ofArguments args plain named = .ok (plain', named') → ValuedArguments P plain' named'
  | [], _, _, _, _, _, valued, read => by
    rw [ofArguments] at read
    cases read
    exact valued
  | arg :: rest, plain, plain', named, named', literals, valued, read => by
    have later : ∀ v x, .literal v x ∈ Expr.subtreesAll rest → P v :=
      fun v x inside => literals v x (mem_append_right _ inside)
    have first : ∀ v x, .literal v x ∈ arg.subtrees → P v :=
      fun v x inside => literals v x (mem_append_left _ inside)
    -- everything but an assignment is an argument by its place
    have byPlace (unassigned : ∀ target v, arg ≠ .assign target v) :
        ValuedArguments P plain' named' := by
      rw [ofArguments.eq_3 plain named arg rest unassigned] at read
      obtain ⟨e, value, read⟩ := bind_eq_ok.mp read
      obtain ⟨keyed, values⟩ := values_of_ofExpr arg first value
      refine values_of_ofArguments rest later ⟨valued.keyed.append keyed, ?_, valued.named⟩ read
      exact forall_mem_append.mpr ⟨valued.plain, by simpa using values⟩
    cases arg with
    | assign target v =>
      rw [ofArguments] at read
      obtain ⟨e, value, read⟩ := bind_eq_ok.mp read
      obtain ⟨k, _, read⟩ := bind_eq_ok.mp read
      obtain ⟨keyed, values⟩ := values_of_ofExpr v (fun w x inside =>
        first w x (mem_cons_of_mem _ (mem_append_right _ inside))) value
      refine values_of_ofArguments rest later
        ⟨valued.keyed.setNamed k keyed, valued.plain, fun p mem => ?_⟩ read
      rcases mem_setNamed mem with new | old
      · exact new ▸ values
      · exact valued.named p old
    | _ => exact byPlace (by simp)

end

lemma keyed_of_ofExpr (e : Expr) {c : CallExpr} (read : ofExpr e = .ok c) : c.Keyed :=
  (values_of_ofExpr (P := fun _ => True) e (fun _ _ _ => trivial) read).1

/-- The tree is what some part of the tree of a formula is read as. -/
def OfFormula (c : CallExpr) : Prop :=
  ∃ code intercept ts tree e, Token.scan code intercept = .ok ts ∧ Expr.parse ts = .ok tree ∧
    e ∈ tree.subtrees ∧ ofExpr e = .ok c

/-- The tree of the whole formula. -/
lemma OfFormula.of_read {code : String} {c : CallExpr}
    (read : (do ofExpr (← Expr.parse (← Token.scan code false))) = .ok c) : OfFormula c := by
  obtain ⟨ts, scanned, read⟩ := bind_eq_ok.mp read
  obtain ⟨e, parsed, read⟩ := bind_eq_ok.mp read
  exact ⟨code, false, ts, e, e, scanned, parsed, e.self_mem_subtrees, read⟩

lemma OfFormula.keyed (produced : OfFormula c) : c.Keyed := by
  obtain ⟨_, _, _, _, e, _, _, _, read⟩ := produced
  exact keyed_of_ofExpr e read

lemma OfFormula.values_self {c : CallExpr} (produced : OfFormula c) :
    ∀ v ∈ c.values, (v == v) := by
  obtain ⟨_, _, ts, tree, e, scanned, parsed, inside, read⟩ := produced
  obtain ⟨w, left, rfl, derives⟩ := Expr.parse_derives parsed
  have ordered : tree.Ordered := derives.ordered fun t mem v stands =>
    Token.scan_literal scanned (mem_append_left _ mem) stands
  refine (values_of_ofExpr (P := fun v => (v == v)) e ?_ read).2
  -- a literal of the part is one of the whole formula
  intro v x deeper
  exact ordered v x (Expr.subtrees_trans tree inside deeper)

end CallExpr

end ModelFormula
