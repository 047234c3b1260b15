import ModelFormula.Proofs.Algebra.TermSets

/-!
# Groupings

Effects on the left of `|` vary over the factors on its right, each over each. They vary with an
intercept, which need not be written; a `0` in front takes it away.
-/
namespace ModelFormula

open List Operand

open Component (unknown)

variable {κ : Type} [DecidableEq κ]

/-- The operand is made of the group-specific terms alone: it is the only one of them, or their
model. -/
inductive Operand.Groups : Operand → List GroupTerm → Prop
  | group (g : GroupTerm) : Groups (ofGroup g) [g]
  | model (gs : List GroupTerm) : Groups (.model (.ofGroups gs)) gs

namespace Marking

variable (M : Marking κ)

/-- What can vary: the intercept, and terms. -/
def IsExpr : Effect → Prop
  | .intercept _ => True
  | .negated => False
  | .term t => M.IsTerm t

/-- Effects that can vary, and what they are: a list of marks, or none for the intercept. -/
structure Exprs (es : List Effect) (D : Finset (Option (List κ))) : Prop where
  valid : ∀ e ∈ es, M.IsExpr e
  marks : (es.map M.marks?).toFinset = D

/-- Every effect of the first set over every factor of the second. -/
structure Pairs (gs : List GroupTerm) (D : Finset (Option (List κ))) (F : Finset (List κ)) : Prop where
  exprs : ∀ g ∈ gs, M.IsExpr g.expr
  factors : ∀ g ∈ gs, ∃ u, g.factor = .term u ∧ M.IsTerm u
  marks : (gs.map fun g => (M.marks? g.expr, M.marks g.factor.held)).toFinset = D ×ˢ F

/-- The operand has exactly the group-specific terms of the two sets. -/
def Crosses (o : Operand) (D : Finset (Option (List κ))) (F : Finset (List κ)) : Prop :=
  ∃ gs, o.Groups gs ∧ M.Pairs gs D F

variable {M} {es : List Effect} {ts : List Term} {a b : Operand} {D E : Finset (Option (List κ))}
  {F : Finset (List κ)} {L : Finset (List κ)} {e : Effect}

lemma Lists.exprs (lists : M.Lists ts L) : M.Exprs (ts.map .term) (L.image some) := by
  constructor
  · intro e mem
    obtain ⟨t, own, rfl⟩ := mem_map.mp mem
    exact lists.terms t own
  · rw [← lists.marks]
    ext x
    simp [marks?, Effect.term?]

lemma exprs_intercept (slot : Nat) : M.Exprs [.intercept slot] {none} := by
  constructor
  · simp [IsExpr]
  · simp [marks?, Effect.term?]

lemma Exprs.append {ds : List Effect} (left : M.Exprs es D) (right : M.Exprs ds E) :
    M.Exprs (es ++ ds) (D ∪ E) := by
  constructor
  · exact forall_mem_append.mpr ⟨left.valid, right.valid⟩
  · rw [← left.marks, ← right.marks]
    simp

lemma Pairs.append {gs hs : List GroupTerm} (left : M.Pairs gs D F) (right : M.Pairs hs E F) :
    M.Pairs (gs ++ hs) (D ∪ E) F := by
  constructor
  · exact forall_mem_append.mpr ⟨left.exprs, right.exprs⟩
  · exact forall_mem_append.mpr ⟨left.factors, right.factors⟩
  · rw [Finset.union_product, ← left.marks, ← right.marks]
    simp

/-! ### New group-specific terms -/

lemma delivers_newIntercept : Delivers Fit.newIntercept fun e => ∃ slot, e = .intercept slot := by
  apply runs_newSlot.bind
  intro slot _
  exact runs_pure ⟨slot, rfl⟩

lemma delivers_newGroup (e f : Effect) :
    Delivers (Fit.newGroup e f) fun g => g.expr = e ∧ g.factor = f := by
  apply runs_newSlot.bind
  intro slot _
  exact runs_pure ⟨rfl, rfl⟩

/-- The group-specific term stands for the pair. -/
structure Shows (M : Marking κ) (p : Option (List κ) × Term) (g : GroupTerm) : Prop where
  expr : M.IsExpr g.expr
  marks : M.marks? g.expr = p.1
  factor : g.factor = .term p.2

/-- One group-specific term for each of the pairs. -/
lemma pairs_of_forall₂ (xs : List (Option (List κ))) (right : M.Lists us F)
    (made : List.Forall₂ M.Shows (xs ×ˢ us) gs) : M.Pairs gs xs.toFinset F := by
  have shown : ∀ {ps gs}, List.Forall₂ M.Shows ps gs → (∀ g ∈ gs, ∃ p ∈ ps, M.Shows p g) ∧
      gs.map (fun g => (M.marks? g.expr, M.marks g.factor.held)) =
        ps.map fun p => (p.1, M.marks p.2.components) := by
    intro ps gs made
    induction made with
    | nil => simp
    | @cons p g ps gs first _ ih =>
      obtain ⟨others, marks⟩ := ih
      constructor
      · intro h mem
        rcases mem_cons.mp mem with rfl | later
        · exact ⟨p, mem_cons_self, first⟩
        · obtain ⟨q, inside, shows⟩ := others h later
          exact ⟨q, mem_cons_of_mem p inside, shows⟩
      · rw [map_cons, map_cons, marks, first.marks, first.factor]
        rfl
  obtain ⟨each, marks⟩ := shown made
  constructor
  · intro g mem
    obtain ⟨p, _, shows⟩ := each g mem
    exact shows.expr
  · intro g mem
    obtain ⟨p, inside, shows⟩ := each g mem
    exact ⟨p.2, shows.factor, right.terms _ (pair_mem_product.mp inside).2⟩
  · rw [marks, ← right.marks]
    ext ⟨x, f⟩
    simp only [mem_toFinset, Finset.mem_product, mem_map, Prod.exists, Prod.mk.injEq]
    constructor
    · rintro ⟨y, u, mem, rfl, rfl⟩
      obtain ⟨first, second⟩ := pair_mem_product.mp mem
      exact ⟨first, u, second, rfl⟩
    · rintro ⟨first, u, second, rfl⟩
      exact ⟨x, u, pair_mem_product.mpr ⟨first, second⟩, rfl, rfl⟩

lemma Exprs.shows {x : Option (List κ)} {u : Term} {g : GroupTerm} (single : M.Exprs [e] {x})
    (made : g.expr = e ∧ g.factor = .term u) : M.Shows (x, u) g := by
  obtain ⟨rfl, factor⟩ := made
  exact ⟨single.valid _ mem_cons_self, by simpa using single.marks, factor⟩

lemma delivers_groupings (left : M.Exprs es D) (right : M.Lists us F) :
    Delivers (Term.groupings es (us.map .term)) (M.Pairs · D F) := by
  have pairs : es.flatMap (fun e => (us.map Effect.term).map fun f => (e, f)) =
      (es ×ˢ us).map fun (e, u) => (e, Effect.term u) := by
    simp [SProd.sprod, List.product, map_flatMap, Function.comp_def]
  have each : ∀ p ∈ es ×ˢ us, Delivers (Fit.newGroup p.1 (.term p.2))
      (M.Shows (M.marks? p.1, p.2)) := by
    rintro ⟨e, u⟩ mem
    apply (delivers_newGroup e (.term u)).imp
    rintro g ⟨rfl, factor⟩
    exact ⟨left.valid _ (pair_mem_product.mp mem).1, rfl, factor⟩
  rw [Term.groupings, pairs, mapM_map, ← left.marks]
  apply (runs_mapM each).imp
  intro gs made
  apply pairs_of_forall₂ _ right
  have all : es.map M.marks? ×ˢ us = (es ×ˢ us).map fun p => (M.marks? p.1, p.2) := by
    simp [SProd.sprod, List.product, map_flatMap, flatMap_map, Function.comp_def]
  rw [all]
  exact forall₂_map_left_iff.mpr made

/-- New intercepts, one for each factor. -/
lemma delivers_intercepts (right : M.Lists us F) :
    Delivers ((us.map Effect.term).mapM fun f => do Fit.newGroup (← Fit.newIntercept) f)
      (M.Pairs · {none} F) := by
  have each : ∀ u ∈ us, Delivers (do Fit.newGroup (← Fit.newIntercept) (.term u))
      (M.Shows (none, u)) := by
    intro u _
    apply delivers_newIntercept.bind
    rintro _ ⟨slot, rfl⟩
    apply (delivers_newGroup (.intercept slot) (.term u)).imp
    intro g made
    exact (exprs_intercept slot).shows made
  rw [mapM_map]
  apply (runs_mapM each).imp
  intro gs made
  have all : ([none] : List (Option (List κ))) ×ˢ us = us.map fun u => (none, u) := by
    simp [SProd.sprod, List.product]
  apply pairs_of_forall₂ [none] right
  rw [all]
  exact forall₂_map_left_iff.mpr made

/-! ### Grouping of operands -/

/-- A model whose intercept is settled. -/
lemma delivers_groupBy {m : Model} (left : M.Exprs m.common D) (right : M.Collects b F) :
    Delivers (m.groupBy b) (M.Crosses · D F) := by
  obtain ⟨us, shape, lists⟩ := right
  have grouped : Delivers (do return model (.ofGroups
      (← Term.groupings m.common (us.map .term)))) (M.Crosses · D F) := by
    apply (delivers_groupings left lists).bind
    intro gs pairs
    exact runs_pure ⟨gs, .model gs, pairs⟩
  cases shape with
  | term u => exact grouped
  | model us => exact grouped

lemma delivers_bar_intercept (slot : Nat) (right : M.Collects b F) :
    Delivers (operate .bar (.ofEffect (.intercept slot)) b) (M.Crosses · {none} F) := by
  obtain ⟨us, shape, lists⟩ := right
  have intercept : M.Exprs [.intercept slot] {none} := exprs_intercept slot
  cases shape with
  | term u =>
    -- a single factor makes a group-specific term, not a model
    apply (delivers_newGroup (.intercept slot) (.term u)).bind
    intro g made
    have shown : List.Forall₂ M.Shows [(none, u)] [g] := .cons (intercept.shows made) .nil
    exact runs_pure ⟨[g], .group g, pairs_of_forall₂ [none] lists shown⟩
  | model us =>
    apply (delivers_groupings intercept lists).bind
    intro gs pairs
    exact runs_pure ⟨gs, .model gs, pairs⟩

lemma delivers_bar_term (term : M.IsTerm t) (right : M.Collects b F) :
    Delivers (t.bar b) (M.Crosses · {none, some (M.marks t.components)} F) := by
  obtain ⟨us, shape, lists⟩ := right
  have single : M.Exprs [.term t] {some (M.marks t.components)} := by
    simpa using (lists_singleton term).exprs
  cases shape with
  | term u =>
    apply delivers_newIntercept.bind
    rintro _ ⟨slot, rfl⟩
    apply (delivers_newGroup (.intercept slot) (.term u)).bind
    intro g made
    apply (delivers_newGroup (.term t) (.term u)).bind
    intro h made'
    apply runs_pure
    refine ⟨[g, h], .model [g, h], ?_⟩
    apply pairs_of_forall₂ [none, some (M.marks t.components)] lists
    exact .cons ((exprs_intercept slot).shows made) (.cons (single.shows made') .nil)
  | model us =>
    apply (delivers_intercepts lists).bind
    intro gs intercepts
    apply (delivers_groupings single lists).bind
    intro hs terms
    exact runs_pure ⟨gs ++ hs, .model (gs ++ hs), intercepts.append terms⟩

/-! ### Settling the intercept -/

/-- A model of terms gets an intercept, also if one is in front; the negated one in front goes and
leaves the terms alone. -/
lemma delivers_settleIntercept (lists : M.Lists ts L) :
    Delivers (Model.ofTerms ts).settleIntercept
        (fun m => M.Exprs m.common (insert none (L.image some))) ∧
      (∀ slot, Delivers (Model.headed [.intercept slot] ts).settleIntercept
        fun m => M.Exprs m.common (insert none (L.image some))) ∧
      Delivers (Model.headed [.negated] ts).settleIntercept
        fun m => M.Exprs m.common (L.image some) := by
  have noNegated : (ts.map Effect.term).any Effect.isNegated = false := by simp [Effect.isNegated]
  have noIntercept : (ts.map Effect.term).any Effect.isIntercept = false := by
    simp [Effect.isIntercept]
  refine ⟨?_, ?_, ?_⟩
  · simp only [Model.settleIntercept, Model.ofTerms, noNegated, noIntercept, Bool.false_eq_true,
      if_false]
    apply delivers_newIntercept.bind
    rintro _ ⟨slot, rfl⟩
    exact runs_pure ((exprs_intercept slot).append lists.exprs)
  · intro slot
    have test : (Model.headed [.intercept slot] ts).common.any Effect.isNegated = false := by
      simp [Model.headed, Model.ofEffects, Effect.isNegated]
    have test' : (Model.headed [.intercept slot] ts).common.any Effect.isIntercept := by
      simp [Model.headed, Model.ofEffects, Effect.isIntercept]
    simp only [Model.settleIntercept, test, test', Bool.false_eq_true, if_false, if_true]
    exact runs_pure ((exprs_intercept slot).append lists.exprs)
  · have test : (Model.headed [.negated] ts).common.any Effect.isNegated := by
      simp [Model.headed, Model.ofEffects, Effect.isNegated]
    have test' : (Model.headed [.negated] ts).common.any Effect.isIntercept = false := by
      simp [Model.headed, Model.ofEffects, Effect.isIntercept]
    simp only [Model.settleIntercept, test, test', Bool.false_eq_true, if_false, if_true]
    exact runs_pure lists.exprs

/-- A model of one effect is grouped as that effect; all others are settled first. -/
lemma delivers_bar_several (several : m.common.length ≠ 1)
    (settled : Delivers m.settleIntercept fun m => M.Exprs m.common D) (right : M.Collects b F) :
    Delivers (operate .bar (.model m) b) (M.Crosses · D F) := by
  rw [operate, Model.operate]
  split
  next e single => simp [single] at several
  next =>
    apply settled.bind
    intro m exprs
    exact delivers_groupBy exprs right

/-- A term and a model of terms are grouped together with an intercept. -/
lemma delivers_bar (left : M.Collects a L) (right : M.Collects b F) :
    Delivers (operate .bar a b) (M.Crosses · (insert none (L.image some)) F) := by
  obtain ⟨ts, shape, lists⟩ := left
  have single : ∀ t, ts = [t] → Delivers (t.bar b)
      (M.Crosses · (insert none (L.image some)) F) := by
    rintro t rfl
    have marks : L = {M.marks t.components} := by
      rw [← lists.marks]
      simp
    rw [marks, Finset.image_singleton]
    exact delivers_bar_term (lists.terms t mem_cons_self) right
  cases shape with
  | term t => exact single t rfl
  | model ts =>
    by_cases one : ts.length = 1
    · obtain ⟨t, rfl⟩ := length_eq_one_iff.mp one
      exact single t rfl
    · have several : (Model.ofTerms ts).common.length ≠ 1 := by simpa [Model.ofTerms] using one
      exact delivers_bar_several several (delivers_settleIntercept lists).1 right

/-! ### Sums behind an intercept -/

/-- The operand is a model of terms behind an intercept or a negated one with the property. -/
def Heads (M : Marking κ) (P : Effect → Prop) (o : Operand) (L : Finset (List κ)) : Prop :=
  ∃ e ts, P e ∧ e.term? = none ∧ o = .model (.headed [e] ts) ∧ M.Lists ts L

variable {P : Effect → Prop}

lemma delivers_addTerms (accepted : P e) (intercept : e.term? = none) (left : M.Lists ts L)
    (right : M.Lists us K) :
    Delivers (do return model (← Fit.withKinds
      ((Model.headed [e] ts).editAll · (Model.addEdits us)))) (M.Heads P · (L ∪ K)) := by
  obtain ⟨vs, done, ordered⟩ := left.ordered.addAll [e] right.ordered (by simpa)
  apply (runs_withKinds_ok done (Q := (· = .headed [e] vs)) rfl).bind
  rintro _ rfl
  rw [← left.marks, ← right.marks, ← toFinset_collected]
  exact runs_pure ⟨e, vs, accepted, intercept, rfl, ordered.lists⟩

/-- An intercept, or a negated one, in front of an operand of terms. -/
lemma delivers_head (accepted : P e) (intercept : e.term? = none) (right : M.Collects b L) :
    Delivers (operate .add (.ofEffect e) b) (M.Heads P · L) := by
  obtain ⟨us, shape, lists⟩ := right
  cases shape with
  | term u =>
    have head : operate .add (.ofEffect e) (.ofTerm u) = pure (.model (.headed [e] [u])) := by
      cases e with
      | term => cases intercept
      | intercept => rfl
      | negated => rfl
    rw [head]
    exact runs_pure ⟨e, [u], accepted, intercept, rfl, lists⟩
  | model us =>
    have none : M.Lists [] ∅ := ⟨by simp, rfl⟩
    have added := delivers_addTerms accepted intercept none lists
    rw [Finset.empty_union, ← added_ofTerms] at added
    cases e with
    | term => cases intercept
    | intercept => exact added
    | negated => exact added

lemma Heads.delivers_add (left : M.Heads P a L) (right : M.Collects b K) :
    Delivers (operate .add a b) (M.Heads P · (L ∪ K)) := by
  obtain ⟨e, ts, accepted, intercept, rfl, lists⟩ := left
  obtain ⟨us, shape, lists'⟩ := right
  have added := delivers_addTerms accepted intercept lists lists'
  cases shape with
  | term u => exact added
  | model us =>
    rw [← added_ofTerms] at added
    exact added

lemma Heads.delivers_bar (left : M.Heads P a L) (nonempty : L.Nonempty)
    (settled : ∀ e ts, P e → M.Lists ts L →
      Delivers (Model.headed [e] ts).settleIntercept fun m => M.Exprs m.common D)
    (right : M.Collects b F) : Delivers (operate .bar a b) (M.Crosses · D F) := by
  obtain ⟨e, ts, accepted, _, rfl, lists⟩ := left
  have several : (Model.headed [e] ts).common.length ≠ 1 := by
    have some : ts ≠ [] := by
      rintro rfl
      obtain ⟨s, mem⟩ := nonempty
      simp [← lists.marks] at mem
    simpa [Model.headed, Model.ofEffects] using some
  exact delivers_bar_several several (settled e ts accepted lists) right

end Marking

/-! ### Trees -/

namespace Expr

/-- The first tree put in front of the second, as its first summand. -/
inductive Headed (p : Expr) : Expr → Expr → Prop
  | sum {plus : Token} (isPlus : plus.kind = .plus) (e : Expr) : Headed p e (.binary p plus e)
  | summand {plus : Token} {l t : Expr} (isPlus : plus.kind = .plus) (headed : Headed p l t)
      (r : Expr) : Headed p (.binary l plus r) (.binary t plus r)

lemma terms_nonempty (mark : Atom → κ) : ∀ e : Expr, e.Sums P → (e.terms mark).Nonempty
  | .grouping e, sums => by
    rw [terms]
    exact terms_nonempty mark e sums
  | .binary l o r, ⟨_, left, right⟩ => by
    have first := terms_nonempty mark l left
    have second := terms_nonempty mark r right
    rw [terms]
    split
    · exact first.image₂ second
    · exact first.inl
  | .name t, _ | .quotedName t, _ => Finset.singleton_nonempty _
  | .subset t level, ⟨v, value, _⟩ => by
    simp [terms, value]
  | .call f args, ⟨e, read, _⟩ => by
    simp [terms, read]

variable {M : Marking κ} {lexeme : Option String}

/-- A sum is resolved term by term behind the effect in front of it. -/
lemma Headed.delivers (headed : Headed p e t) (sums : e.Sums M.Has)
    (first : Delivers (ofExpr p) fun o => ∃ e, P e ∧ e.term? = none ∧ o = .ofEffect e) :
    Delivers (ofExpr t) (M.Heads P · (e.terms M.mark)) := by
  induction headed with
  | sum isPlus e =>
    apply runs_operation isPlus rfl first (delivers_ofExpr M e sums)
    rintro _ o ⟨d, accepted, intercept, rfl⟩ collected
    exact Marking.delivers_head accepted intercept collected
  | @summand plus l t isPlus _ r ih =>
    obtain ⟨_, left, right⟩ := sums
    rw [terms_sum _ isPlus]
    apply runs_operation isPlus rfl (ih left) (delivers_ofExpr M r right)
    exact fun _ _ heads collected => heads.delivers_add collected

lemma delivers_one (lexeme : Option String) :
    Delivers (ofExpr (.literal (.int 1) lexeme)) fun o =>
      ∃ e, (∃ slot, e = .intercept slot) ∧ e.term? = none ∧ o = .ofEffect e := by
  apply Marking.delivers_newIntercept.bind
  rintro _ ⟨slot, rfl⟩
  exact runs_pure ⟨.intercept slot, ⟨slot, rfl⟩, rfl, rfl⟩

lemma delivers_zero (lexeme : Option String) :
    Delivers (ofExpr (.literal (.int 0) lexeme)) fun o =>
      ∃ e, e = .negated ∧ e.term? = none ∧ o = .ofEffect e :=
  runs_pure ⟨.negated, rfl, rfl, rfl⟩

/-- Sums behind a `0` are grouped without an intercept. -/
lemma delivers_withoutIntercept (isBar : bar.kind = .pipe)
    (headed : Headed (.literal (.int 0) lexeme) e t) (sums : e.Sums M.Has) (factors : f.Sums M.Has) :
    Delivers (ofExpr (.binary t bar f))
      (M.Crosses · ((e.terms M.mark).image some) (f.terms M.mark)) := by
  apply runs_operation isBar rfl (headed.delivers sums (delivers_zero lexeme))
    (delivers_ofExpr M f factors)
  intro a b heads collected
  apply heads.delivers_bar (terms_nonempty M.mark e sums) _ collected
  rintro _ ts rfl lists
  exact (Marking.delivers_settleIntercept lists).2.2

/-- Sums behind a `1` are grouped with an intercept. -/
lemma delivers_withIntercept (isBar : bar.kind = .pipe)
    (headed : Headed (.literal (.int 1) lexeme) e t) (sums : e.Sums M.Has) (factors : f.Sums M.Has) :
    Delivers (ofExpr (.binary t bar f))
      (M.Crosses · (insert none ((e.terms M.mark).image some)) (f.terms M.mark)) := by
  apply runs_operation isBar rfl (headed.delivers sums (delivers_one lexeme))
    (delivers_ofExpr M f factors)
  intro a b heads collected
  apply heads.delivers_bar (terms_nonempty M.mark e sums) _ collected
  rintro _ ts ⟨slot, rfl⟩ lists
  exact (Marking.delivers_settleIntercept lists).2.1 slot

/-- Trees of names, `+`, `:` and parentheses are grouped by such trees. The result has exactly the
group-specific terms of the effects over the factors, and no common term: the effects are the terms
on the left and the intercept, written in front or not; a `0` in front leaves the intercept out; and
a `1` alone is the intercept alone. -/
theorem ofExpr_groupings {E F : Expr} {bar : Token} {σ : Store} (isBar : bar.kind = .pipe)
    (effects : E.Sums Atom.IsNamed) (factors : F.Sums Atom.IsNamed) (untyped : σ.Untyped) :
    let terms := (E.terms Atom.label).image some
    let resolves := fun (T : Expr) (exprs : Finset (Option (List (String × Option String)))) =>
      ∃ o τ, Ends (ofExpr (.binary T bar F)) σ o τ ∧
        Marking.names.Crosses o exprs (F.terms Atom.label)
    resolves E (insert none terms) ∧
      (∀ T lexeme, Headed (.literal (.int 1) lexeme) E T → resolves T (insert none terms)) ∧
      (∀ T lexeme, Headed (.literal (.int 0) lexeme) E T → resolves T terms) ∧
      ∀ lexeme, resolves (.literal (.int 1) lexeme) {none} := by
  intro terms resolves
  have grouped := delivers_ofExpr Marking.names F factors
  have resolved : ∀ {T exprs}, Delivers (ofExpr (.binary T bar F))
      (Marking.names.Crosses · exprs (F.terms Atom.label)) → resolves T exprs := by
    intro T exprs delivers
    obtain ⟨o, τ, ends, _, crosses⟩ := delivers.ends untyped
    exact ⟨o, τ, ends, crosses⟩
  refine ⟨?_, ?_, ?_, ?_⟩
  · apply resolved
    apply runs_operation isBar rfl (delivers_ofExpr Marking.names E effects) grouped
    intro a b own other
    exact Marking.delivers_bar own other
  · intro T lexeme headed
    exact resolved (delivers_withIntercept (M := Marking.names) isBar headed effects factors)
  · intro T lexeme headed
    exact resolved (delivers_withoutIntercept (M := Marking.names) isBar headed effects factors)
  · intro lexeme
    apply resolved
    apply runs_operation isBar rfl (delivers_one lexeme) grouped
    rintro _ b ⟨_, ⟨slot, rfl⟩, _, rfl⟩ other
    exact Marking.delivers_bar_intercept slot other

/-- The trees of `(x + y:z | g + h)` and `(0 + x + y:z | g + h)`. -/
theorem ofExpr_groupings_twoFactors :
    let plus : Token := ⟨.plus, "+", none⟩
    let bar : Token := ⟨.pipe, "|", none⟩
    let var := fun s : String => name ⟨.identifier, s, none⟩
    let pair := binary (var "y") ⟨.colon, ":", none⟩ (var "z")
    let F := binary (var "g") plus (var "h")
    let factors := {[("g", none)], [("h", none)]}
    (∃ o τ, Ends (ofExpr (.binary (.binary (var "x") plus pair) bar F)) {} o τ ∧
      Marking.names.Crosses o {none, some [("x", none)], some [("y", none), ("z", none)]} factors) ∧
    ∃ o τ, Ends (ofExpr (.binary
        (.binary (.binary (.literal (.int 0) none) plus (var "x")) plus pair) bar F)) {} o τ ∧
      Marking.names.Crosses o {some [("x", none)], some [("y", none), ("z", none)]} factors := by
  intro plus bar var pair F factors
  have effects : (binary (var "x") plus pair).Sums Atom.IsNamed :=
    ⟨.inl rfl, isNamed _, .inr rfl, isNamed _, isNamed _⟩
  have both : F.Sums Atom.IsNamed := ⟨.inl rfl, isNamed _, isNamed _⟩
  obtain ⟨implicit, _, suppressed, _⟩ :=
    ofExpr_groupings (rfl : bar.kind = _) effects both Store.untyped_empty
  constructor
  · exact implicit
  · exact suppressed _ none (.summand rfl (.sum rfl _) _)

end Expr

end ModelFormula
