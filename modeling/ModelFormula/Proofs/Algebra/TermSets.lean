import ModelFormula.Proofs.Algebra.TermLists

/-!
# Sets of terms

Where the order of terms does not matter, a term or a model of terms counts by the set of its lists of
marks. On such operands `+` and `:` are operations on sets: the union, and the joined lists of all
pairs.
-/
namespace ModelFormula

variable {κ : Type} [DecidableEq κ]

lemma toFinset_collected (ss rs : List (List κ)) :
    (collected ss rs).toFinset = ss.toFinset ∪ rs.toFinset := by
  ext s
  simp [mem_collected]

lemma toFinset_products (ss rs : List (List κ)) :
    (products ss rs).toFinset = Finset.image₂ joined ss.toFinset rs.toFinset := by
  ext s
  simp [products, Finset.mem_image₂]

namespace Marking

/-! ### Lists of terms -/

/-- The terms have the lists of marks that the set holds. -/
structure Lists (M : Marking κ) (ts : List Term) (D : Finset (List κ)) : Prop where
  terms : ∀ t ∈ ts, M.IsTerm t
  marks : (ts.map fun t => M.marks t.components).toFinset = D

variable {M : Marking κ} {ts : List Term} {D : Finset (List κ)}

lemma Lists.ordered (lists : M.Lists ts D) :
    M.Ordered ts (ts.map fun t => M.marks t.components) :=
  ⟨lists.terms, rfl⟩

lemma Ordered.lists {ss : List (List κ)} (ordered : M.Ordered ts ss) : M.Lists ts ss.toFinset :=
  ⟨ordered.terms, congrArg List.toFinset ordered.marks⟩

lemma lists_singleton (term : M.IsTerm t) : M.Lists [t] {M.marks t.components} := by
  constructor
  · simpa using term
  · simp

lemma Lists.append (left : M.Lists ts D) (right : M.Lists us E) : M.Lists (ts ++ us) (D ∪ E) := by
  constructor
  · exact List.forall_mem_append.mpr ⟨left.terms, right.terms⟩
  · rw [← left.marks, ← right.marks]
    simp

lemma Lists.delivers_interactions (left : M.Lists ts D) (right : M.Lists us E) :
    Delivers (Term.interactions (ts.map .term) (us.map .term)) fun vs =>
      M.Lists vs (Finset.image₂ joined D E) := by
  apply (Marking.delivers_interactions left.ordered right.ordered).imp
  intro vs made
  rw [← left.marks, ← right.marks, ← toFinset_products]
  exact made.lists

/-! ### Operands of terms only -/

/-- A term, or a model of terms only, that has the lists of marks in the set. -/
def Collects (M : Marking κ) (o : Operand) (D : Finset (List κ)) : Prop :=
  ∃ ts, o.Consists ts ∧ M.Lists ts D

variable {a : Operand}

lemma Lists.collects (lists : M.Lists ts D) : M.Collects (.model (.ofTerms ts)) D :=
  ⟨ts, .model ts, lists⟩

lemma Draws.collects {S : Outline κ} (drawn : M.Draws a S) : M.Collects a S.lists.toFinset := by
  cases drawn with
  | @term t s ordered => exact ⟨[t], .term t, ordered.lists⟩
  | @model ts ss ordered => exact ⟨ts, .model ts, ordered.lists⟩

lemma Lists.delivers_editAll (left : M.Lists ts D) (right : M.Lists us E) :
    Delivers (do return Operand.model (← Fit.withKinds
      ((Model.ofTerms ts).editAll · (Model.addEdits us)))) fun o => M.Collects o (D ∪ E) := by
  apply (Marking.delivers_editAll left.ordered right.ordered).imp
  intro o drawn
  rw [← left.marks, ← right.marks, ← toFinset_collected]
  exact drawn.collects

end Marking

/-! ### Trees -/

namespace Expr

/-- The terms that such a tree stands for, each a list of marks: an atom is a term of its own, `:`
joins every term on its left with every one on its right, and `+` has the terms of both sides. -/
def terms (mark : Atom → κ) : Expr → Finset (List κ)
  | .grouping e => terms mark e
  | .binary l o r =>
    if o.kind = .colon then Finset.image₂ joined (terms mark l) (terms mark r)
    else terms mark l ∪ terms mark r
  | .name t => {[mark (.variable (.text t.lexeme) none)]}
  | .quotedName t => {[mark (.variable (.text (unquote t.lexeme)) none)]}
  | .subset t level =>
    match Operand.levelValue level with
    | .ok v => {[mark (.variable (.text t.lexeme) (some v))]}
    | .error _ => ∅
  | .call f args =>
    match CallExpr.ofExpr (.call f args) with
    | .ok e => {[mark (.call e)]}
    | .error _ => ∅
  | _ => ∅

section

variable (mark : Atom → κ) {plus colon : Token}

lemma terms_sum (kind : plus.kind = .plus) (a b : Expr) :
    terms mark (.binary a plus b) = terms mark a ∪ terms mark b := by
  simp [terms, kind]

lemma terms_interaction (kind : colon.kind = .colon) (a b : Expr) :
    terms mark (.binary a colon b) = Finset.image₂ joined (terms mark a) (terms mark b) := by
  simp [terms, kind]

end

lemma toFinset_outline (mark : Atom → κ) : ∀ e : Expr,
    (e.outline mark).lists.toFinset = e.terms mark
  | .grouping e => by
    rw [outline, terms]
    exact toFinset_outline mark e
  | .binary l o r => by
    have left := toFinset_outline mark l
    have right := toFinset_outline mark r
    rw [outline, terms, ← left, ← right]
    split
    · rw [Outline.lists_interact, toFinset_products]
    · ext s
      simp [Outline.mem_lists_add]
  | .name t => rfl
  | .quotedName t => rfl
  | .subset t level => by
    rw [outline, terms]
    cases Operand.levelValue level <;> rfl
  | .call f args => by
    rw [outline, terms]
    cases CallExpr.ofExpr (.call f args) <;> rfl
  | .literal _ _ => rfl
  | .unary _ _ => rfl
  | .assign _ _ => rfl

/-- A tree of sums and interactions is resolved, to the terms that it stands for. -/
lemma delivers_ofExpr (M : Marking κ) (e : Expr) (sums : e.Sums M.Has) :
    Delivers (Operand.ofExpr e) fun o => M.Collects o (e.terms M.mark) := by
  apply (delivers_outline M e sums).imp
  intro o drawn
  rw [← toFinset_outline]
  exact drawn.collects

end Expr

/-!
### Sums and interactions of names

Names put together by `+`, `:` and parentheses are always resolved. As sets of terms, sums are
unions and interactions go over all pairs.
-/

open Literal

open Component (unknown)

lemma Literal.beq_text (s t : String) : (text s == text t) = decide (s = t) := by
  simp [BEq.beq, same]

/-- A variable with a name, possibly at one level. -/
def Atom.IsNamed (a : Atom) : Prop := ∃ name level, a = .variable (.text name) (Option.map .text level)

lemma isNamed (s : String) : (Atom.variable (.text s) none).IsNamed := ⟨s, none, rfl⟩

/-- The name of a variable and its level. -/
def Atom.label : Atom → String × Option String
  | .variable name level => (name.plain, level.bind text?)
  | .call e => (e.text, none)
  | .stray s => (s.name, none)

/-- Named variables are equal if they have the same name and the same level. -/
def Marking.names : Marking (String × Option String) where
  Has := Atom.IsNamed
  mark := Atom.label
  same := by
    rintro ⟨slot, _⟩ ⟨slot', _⟩ ⟨name, level, rfl⟩ ⟨name', level', rfl⟩
    have levels : (Option.map text level == Option.map text level') = decide (level = level') := by
      cases level <;> cases level' <;> simp [beq_text]
    have label : ∀ l : Option String, (l.map text).bind text? = l := by
      intro l
      cases l <;> rfl
    simp [Component.same, unknown, beq_text, levels, Atom.label, plain, label]
  named := by
    rintro ⟨slot, _⟩ ⟨name, level, rfl⟩
    rfl

namespace Expr

/-- Every tree of names, `+`, `:` and parentheses is resolved to a term or a model of terms, and to
those terms that it stands for. Among sets of terms `+` is commutative, associative and idempotent,
and `:` is associative and distributes over `+` on both sides. -/
theorem ofExpr_sumsOfNames :
    (∀ (e : Expr) (σ : Store), e.Sums Atom.IsNamed → σ.Untyped →
      ∃ o ts τ, Ends (Operand.ofExpr e) σ o τ ∧ o.Consists ts ∧
        (∀ t ∈ ts, ∀ c ∈ t.components, c.atom.IsNamed) ∧
        (ts.map fun t => t.components.map (·.atom.label)).toFinset = e.terms Atom.label) ∧
    ∀ (plus colon : Token) (a b c : Expr), plus.kind = .plus → colon.kind = .colon →
      let sum := fun x y => binary x plus y
      let interaction := fun x y => binary x colon y
      (sum a b).terms Atom.label = (sum b a).terms Atom.label ∧
      (sum (sum a b) c).terms Atom.label = (sum a (sum b c)).terms Atom.label ∧
      (sum a a).terms Atom.label = a.terms Atom.label ∧
      (interaction (interaction a b) c).terms Atom.label =
        (interaction a (interaction b c)).terms Atom.label ∧
      (interaction a (sum b c)).terms Atom.label =
        (sum (interaction a b) (interaction a c)).terms Atom.label ∧
      (interaction (sum a b) c).terms Atom.label =
        (sum (interaction a c) (interaction b c)).terms Atom.label := by
  constructor
  · intro e σ sums untyped
    obtain ⟨o, τ, ends, _, ts, consists, lists⟩ := (delivers_ofExpr Marking.names e sums).ends untyped
    exact ⟨o, ts, τ, ends, consists, fun t member => (lists.terms t member).has, lists.marks⟩
  · intro plus colon a b c isPlus isColon
    simp only [terms_sum _ isPlus, terms_interaction _ isColon]
    refine ⟨Finset.union_comm .., Finset.union_assoc .., Finset.union_self _, ?_, ?_, ?_⟩
    · exact Finset.image₂_assoc joined_assoc
    · exact Finset.image₂_union_right
    · exact Finset.image₂_union_left

/-- The tree of ``(a + b) : (a + `c d`)``: `a` does not interact with itself. -/
theorem ofExpr_sumsOfNames_fourPairs :
    let plus : Token := ⟨.plus, "+", none⟩
    let colon : Token := ⟨.colon, ":", none⟩
    let a := name ⟨.identifier, "a", none⟩
    let left := grouping (binary a plus (name ⟨.identifier, "b", none⟩))
    let right := grouping (binary a plus (quotedName ⟨.quotedName, "`c d`", none⟩))
    (∃ o ts τ, Ends (Operand.ofExpr (binary left colon right)) {} o τ ∧ o.Consists ts ∧
      (ts.map fun t => t.components.map (·.atom.label)).toFinset =
        {[("a", none)], [("a", none), ("c d", none)], [("b", none), ("a", none)],
          [("b", none), ("c d", none)]}) ∧
    (binary left plus right).terms Atom.label = (binary right plus left).terms Atom.label := by
  intro plus colon a left right
  have sums : (binary left colon right).Sums Atom.IsNamed := by
    exact ⟨.inr rfl, ⟨.inl rfl, isNamed _, isNamed _⟩, ⟨.inl rfl, isNamed _, isNamed _⟩⟩
  obtain ⟨resolved, laws⟩ := ofExpr_sumsOfNames
  constructor
  · obtain ⟨o, ts, τ, ends, consists, _, set⟩ :=
      resolved (binary left colon right) {} sums Store.untyped_empty
    refine ⟨o, ts, τ, ends, consists, set.trans ?_⟩
    decide +kernel
  · exact (laws plus colon left right left rfl rfl).1

end Expr

end ModelFormula
