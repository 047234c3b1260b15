import ModelFormula.Proofs.Algebra.Groupings

/-!
# Suppressed intercepts

A `0` in front of a sum suppresses the intercept of a grouping. A `0` added to a model of terms, or
a `1` subtracted from it, leaves no trace, so that the grouping brings the intercept in after all.
-/
namespace ModelFormula

open List Operand

open Component (unknown)

variable {κ : Type} [DecidableEq κ]

/-- The operands have the same group-specific terms and nothing else, in whatever order. -/
def Operand.SameGroups (a b : Operand) : Prop :=
  ∃ gs hs, a.Groups gs ∧ b.Groups hs ∧ (∀ g ∈ gs, ∃ h ∈ hs, g.same unknown h = .ok true) ∧
    ∀ h ∈ hs, ∃ g ∈ gs, h.same unknown g = .ok true

lemma Operand.Groups.groups_eq {o : Operand} (shape : o.Groups gs) : o.groups = gs := by
  cases shape with
  | group g => rfl
  | model gs => rfl

namespace Marking

variable {M : Marking κ} {a b : Operand} {D : Finset (Option (List κ))} {F G : Finset (List κ)}

lemma IsExpr.same {e d : Effect} (left : M.IsExpr e) (right : M.IsExpr d) :
    e.same unknown d = .ok (decide (M.marks? e = M.marks? d)) := by
  cases e with
  | negated => cases left
  | intercept =>
    cases d with
    | negated => cases right
    | intercept => rfl
    | term => rfl
  | term t =>
    cases d with
    | negated => cases right
    | intercept => rfl
    | term u => simp [Effect.same, IsTerm.same left right, marks?, Effect.term?]

lemma Pairs.same {gs hs : List GroupTerm} {g h : GroupTerm} (left : M.Pairs gs D F)
    (right : M.Pairs hs E G) (own : g ∈ gs) (other : h ∈ hs) :
    g.same unknown h = .ok (decide ((M.marks? g.expr, M.marks g.factor.held) =
      (M.marks? h.expr, M.marks h.factor.held))) := by
  obtain ⟨t, factor, term⟩ := left.factors g own
  obtain ⟨u, factor', term'⟩ := right.factors h other
  have exprs := (left.exprs g own).same (right.exprs h other)
  have factors : g.factor.same unknown h.factor =
      .ok (decide (M.marks g.factor.held = M.marks h.factor.held)) := by
    rw [factor, factor']
    exact term.same term'
  by_cases eq : M.marks? g.expr = M.marks? h.expr
  · simp [GroupTerm.same, exprs, factors, eq, ok_bind]
  · simp [GroupTerm.same, exprs, eq, ok_bind, pure_ok]

/-- Operands have the same group-specific terms if the pairs are the same. -/
lemma Crosses.sameGroups_iff (left : M.Crosses a D F) (right : M.Crosses b E G) :
    a.SameGroups b ↔ D ×ˢ F = E ×ˢ G := by
  obtain ⟨gs, shape, pairs⟩ := left
  obtain ⟨hs, shape', pairs'⟩ := right
  rw [← pairs.marks, ← pairs'.marks]
  let mark := fun g : GroupTerm => (M.marks? g.expr, M.marks g.factor.held)
  have inside : ∀ {gs hs : List GroupTerm}, (∀ g ∈ gs, ∀ h ∈ hs,
      g.same unknown h = .ok (decide (mark g = mark h))) →
      ((∀ g ∈ gs, ∃ h ∈ hs, g.same unknown h = .ok true) ↔
        (gs.map mark).toFinset ⊆ (hs.map mark).toFinset) := by
    intro gs hs same
    simp only [Finset.subset_iff, mem_toFinset, mem_map]
    constructor
    · rintro found _ ⟨g, own, rfl⟩
      obtain ⟨h, other, eq⟩ := found g own
      rw [same g own h other, Except.ok.injEq, decide_eq_true_iff] at eq
      exact ⟨h, other, eq.symm⟩
    · intro subset g own
      obtain ⟨h, other, eq⟩ := subset ⟨g, own, rfl⟩
      refine ⟨h, other, ?_⟩
      rw [same g own h other, eq]
      simp
  have forth := inside fun g own h other => pairs.same pairs' own other
  have back := inside fun h own g other => pairs'.same pairs own other
  constructor
  · rintro ⟨gs', hs', own, own', first, second⟩
    obtain rfl := own.groups_eq.symm.trans shape.groups_eq
    obtain rfl := own'.groups_eq.symm.trans shape'.groups_eq
    exact Finset.Subset.antisymm (forth.mp first) (back.mp second)
  · intro eq
    exact ⟨gs, hs, shape, shape', forth.mpr eq.subset, back.mpr eq.superset⟩

end Marking

/-! ### Intercepts taken away behind a sum -/

lemma removed_intercept (ts : List Term) (slot : Nat) :
    (Model.ofTerms ts).editAll unknown [.remove (.effect (.intercept slot))] =
      .ok (Model.ofTerms ts) := by
  have kept : eraseM (Effect.same unknown · (.intercept slot)) (ts.map .term) =
      .ok (ts.map .term) := by
    induction ts with
    | nil => rfl
    | cons t ts ih =>
      rw [map_cons, eraseM, ih]
      rfl
  simp [Model.editAll, Model.edit, Model.remove, Model.ofTerms, kept, ok_bind, pure_ok]

namespace Expr

/-- The first tree with a `0` added or a `1` subtracted behind it. -/
inductive Trailed (e : Expr) : Expr → Prop
  | zero {plus : Token} (isPlus : plus.kind = .plus) (lexeme : Option String) :
      Trailed e (.binary e plus (.literal (.int 0) lexeme))
  | one {minus : Token} (isMinus : minus.kind = .minus) (lexeme : Option String) :
      Trailed e (.binary e minus (.literal (.int 1) lexeme))

variable {M : Marking κ}

/-- Behind a single term neither is supported. -/
lemma Trailed.unsupported {s : List κ} (trailed : Trailed e t) (sums : e.Sums M.Has)
    (single : e.outline M.mark = .term s) (untyped : σ.Untyped) :
    (outcome (ofExpr t) σ).1 = .error .unsupported := by
  obtain ⟨o, τ, ends, untyped, drawn⟩ := (delivers_outline M e sums).ends untyped
  rw [single] at drawn
  cases drawn with
  | @term u _ _ =>
    cases trailed with
    | zero isPlus lexeme =>
      rw [ofExpr_of_operator (congrArg operator? isPlus), ends.outcome_bind]
      rfl
    | one isMinus lexeme =>
      rw [ofExpr_of_operator (congrArg operator? isMinus), ends.outcome_bind]
      rfl

/-- Behind a model of terms neither changes anything. -/
lemma Trailed.delivers {ss : List (List κ)} (trailed : Trailed e t) (sums : e.Sums M.Has)
    (several : e.outline M.mark = .model ss) :
    Delivers (ofExpr t) (M.Collects · (e.terms M.mark)) := by
  have resolved := delivers_outline M e sums
  have removed : ∀ {ts : List Term} {edits : Fit (List Model.Edit)}, M.Ordered ts ss →
      Delivers edits (fun es => ∃ slot, es = [.remove (.effect (.intercept slot))]) →
      Delivers (do return model (← Fit.withKinds ((Model.ofTerms ts).editAll · (← edits))))
        (M.Collects · (e.terms M.mark)) := by
    intro ts edits ordered made
    apply made.bind
    rintro _ ⟨slot, rfl⟩
    apply (runs_withKinds_ok (removed_intercept ts slot) (Q := (· = .ofTerms ts)) rfl).bind
    rintro _ rfl
    rw [← toFinset_outline, several]
    exact runs_pure ordered.lists.collects
  rw [several] at resolved
  cases trailed with
  | zero isPlus lexeme =>
    apply runs_operation isPlus rfl resolved (delivers_zero lexeme)
    rintro _ _ (_ | ordered) ⟨_, rfl, _, rfl⟩
    -- adding the negated intercept removes a new one
    have made : Delivers (do return [Model.Edit.remove (.effect (← Fit.newIntercept))]) fun es =>
        ∃ slot, es = [.remove (.effect (.intercept slot))] := by
      apply Marking.delivers_newIntercept.bind
      rintro _ ⟨slot, rfl⟩
      exact runs_pure ⟨slot, rfl⟩
    exact removed ordered made
  | one isMinus lexeme =>
    apply runs_operation isMinus rfl resolved (delivers_one lexeme)
    rintro _ _ (_ | ordered) ⟨_, ⟨slot, rfl⟩, _, rfl⟩
    exact removed ordered (runs_pure ⟨slot, rfl⟩)

/-- A sum of names behind a `0` is grouped without an intercept. With a `0` added or a `1` subtracted
behind it, the grouping is not supported if the sum is a single term; if it is a model of terms, the
grouping has the intercept all the same, and so it is not the one with the `0` in front. -/
theorem ofExpr_suppressedIntercepts {A F T L : Expr} {bar : Token} {lexeme : Option String}
    {σ : Store} (isBar : bar.kind = .pipe) (sums : A.Sums Atom.IsNamed)
    (factors : F.Sums Atom.IsNamed) (front : Headed (.literal (.int 0) lexeme) A T)
    (behind : Trailed A L) (untyped : σ.Untyped) :
    let terms := (A.terms Atom.label).image some
    ∃ o τ, Ends (ofExpr (.binary T bar F)) σ o τ ∧
      Marking.names.Crosses o terms (F.terms Atom.label) ∧
      (∀ s, A.outline Atom.label = .term s →
        (outcome (ofExpr (.binary L bar F)) σ).1 = .error .unsupported) ∧
      ∀ ss, A.outline Atom.label = .model ss → ∃ r ω, Ends (ofExpr (.binary L bar F)) σ r ω ∧
          Marking.names.Crosses r (insert none terms) (F.terms Atom.label) ∧ ¬ r.SameGroups o := by
  intro terms
  have headed := delivers_withoutIntercept (M := Marking.names) isBar front sums factors
  obtain ⟨o, τ, ends, _, crosses⟩ := headed.ends untyped
  refine ⟨o, τ, ends, crosses, ?_, ?_⟩
  · intro s single
    rw [ofExpr_of_operator (congrArg operator? isBar)]
    exact fault_bind (behind.unsupported (M := Marking.names) sums single untyped)
  · intro ss several
    have trailed := runs_operation isBar rfl (behind.delivers (M := Marking.names) sums several)
      (delivers_ofExpr Marking.names F factors) fun a b own other => Marking.delivers_bar own other
    obtain ⟨r, ω, ends', _, crosses'⟩ := trailed.ends untyped
    refine ⟨r, ω, ends', crosses', ?_⟩
    rw [crosses'.sameGroups_iff crosses]
    intro equal
    -- the intercept over any factor is on one side only
    obtain ⟨f, factor⟩ := terms_nonempty Atom.label F factors
    have member : (none, f) ∈ terms ×ˢ F.terms Atom.label :=
      equal.subset (Finset.mem_product.mpr ⟨Finset.mem_insert_self _ _, factor⟩)
    simp [terms] at member

/-- The trees of `(0 + x + y | g)` and `(x + y - 1 | g)`. -/
theorem ofExpr_suppressedIntercepts_twoTerms :
    let plus : Token := ⟨.plus, "+", none⟩
    let bar : Token := ⟨.pipe, "|", none⟩
    let var := fun s : String => name ⟨.identifier, s, none⟩
    let front := binary (binary (literal (.int 0) none) plus (var "x")) plus (var "y")
    let behind := binary (binary (var "x") plus (var "y")) ⟨.minus, "-", none⟩ (literal (.int 1) none)
    ∃ o τ r ω, Ends (ofExpr (binary front bar (var "g"))) {} o τ ∧
      Marking.names.Crosses o {some [("x", none)], some [("y", none)]} {[("g", none)]} ∧
      Ends (ofExpr (binary behind bar (var "g"))) {} r ω ∧
      Marking.names.Crosses r {none, some [("x", none)], some [("y", none)]} {[("g", none)]} := by
  intro plus bar var front behind
  have sums : (binary (var "x") plus (var "y")).Sums Atom.IsNamed :=
    ⟨.inl rfl, isNamed _, isNamed _⟩
  have factor : (var "g").Sums Atom.IsNamed := isNamed _
  have headed : Headed (literal (.int 0) none) (binary (var "x") plus (var "y")) front :=
    .summand rfl (.sum rfl _) _
  have trailed : Trailed (binary (var "x") plus (var "y")) behind := .one rfl none
  obtain ⟨o, τ, ends, crosses, _, several⟩ := ofExpr_suppressedIntercepts (rfl : bar.kind = _) sums
    factor headed trailed Store.untyped_empty
  obtain ⟨r, ω, ends', crosses', _⟩ := several [[("x", none)], [("y", none)]] rfl
  exact ⟨o, τ, r, ω, ends, crosses, ends', crosses'⟩

/-- `(x + y + 0 | g)` has an intercept over `g`, and `(0 + x + y | g)` has none. -/
theorem suppressed_behind_sum :
    let plus : Token := ⟨.plus, "+", none⟩
    let bar : Token := ⟨.pipe, "|", none⟩
    let var := fun s : String => name ⟨.identifier, s, none⟩
    let zero := literal (.int 0) none
    let front := binary (binary zero plus (var "x")) plus (var "y")
    let behind := binary (binary (var "x") plus (var "y")) plus zero
    ∃ r τ o ω, Ends (ofExpr (binary behind bar (var "g"))) {} r τ ∧
      Ends (ofExpr (binary front bar (var "g"))) {} o ω ∧ ¬ r.SameGroups o := by
  intro plus bar var zero front behind
  let intercepts : Operand → List Bool := fun o => o.groups.map (·.expr.isIntercept)
  obtain ⟨r, τ, ends, three⟩ : ∃ r τ, Ends (ofExpr (binary behind bar (var "g"))) {} r τ ∧
      intercepts r = [true, false, false] := exists_ends (by cbv)
  obtain ⟨o, ω, ends', two⟩ : ∃ o ω, Ends (ofExpr (binary front bar (var "g"))) {} o ω ∧
      intercepts o = [false, false] := exists_ends (by cbv)
  refine ⟨r, τ, o, ω, ends, ends', ?_⟩
  rintro ⟨gs, hs, shape, shape', forth, _⟩
  simp only [intercepts, shape.groups_eq] at three
  simp only [intercepts, shape'.groups_eq] at two
  obtain ⟨g, own, intercept⟩ : ∃ g ∈ gs, g.expr.isIntercept := mem_map.mp (by rw [three]; decide)
  obtain ⟨h, other, equal⟩ := forth g own
  have term : h.expr.isIntercept = false := by
    have member : h.expr.isIntercept ∈ hs.map (·.expr.isIntercept) := mem_map_of_mem other
    rw [two] at member
    simpa using member
  -- an intercept equals intercepts only
  have apart : g.expr.same unknown h.expr = .ok false := by
    cases left : g.expr with
    | negated | term => simp [left, Effect.isIntercept] at intercept
    | intercept =>
      cases right : h.expr with
      | intercept => simp [right, Effect.isIntercept] at term
      | negated => rfl
      | term => rfl
  simp [GroupTerm.same, apart, ok_bind, pure_ok] at equal

end Expr

/-!
### Running sums

A sum that begins with the intercept is built up from left to right. It amounts to a set of effects,
the intercept among them or not, and a set of group-specific terms.
-/

open Model

namespace Marking

variable (M : Marking κ)

/-- What varies, and over which factor. -/
def pair (g : GroupTerm) : Option (List κ) × List κ := (M.marks? g.expr, M.marks g.factor.held)

/-- A group-specific term of the intercept or a term, over a term. -/
structure IsGroup (g : GroupTerm) : Prop where
  expr : M.IsExpr g.expr
  factor : ∃ u, g.factor = .term u ∧ M.IsTerm u

/-- The model has exactly the effects of the first set, none of them twice, and the group-specific
terms of the second, and no response. -/
structure Holds (m : Model) (D : Finset (Option (List κ)))
    (G : Finset (Option (List κ) × List κ)) : Prop where
  effects : M.Exprs m.common D
  distinct : (m.common.map M.marks?).Nodup
  grouped : ∀ g ∈ m.group, M.IsGroup g
  groups : (m.group.map M.pair).toFinset = G
  response : m.response = none

variable {M} {m : Model} {D : Finset (Option (List κ))} {G : Finset (Option (List κ) × List κ)}
  {e : Effect}

lemma holds_empty : M.Holds {} ∅ ∅ := by
  refine ⟨⟨?_, rfl⟩, nodup_nil, ?_, rfl, rfl⟩
  · simp
  · simp

/-! ### Edits -/

lemma Holds.search (holds : M.Holds m D G) (valid : M.IsExpr e) :
    ∀ d ∈ m.common, d.same unknown e = .ok (decide (M.marks? d = M.marks? e)) :=
  fun d mem => (holds.effects.valid d mem).same valid

lemma Holds.add_effect (holds : M.Holds m D G) (valid : M.IsExpr e) :
    ∃ m', m.add unknown (.effect e) = .ok m' ∧ M.Holds m' (insert (M.marks? e) D) G := by
  have found : (m.common.any fun d => decide (M.marks? d = M.marks? e)) =
      decide (M.marks? e ∈ m.common.map M.marks?) := by
    rw [Bool.eq_iff_iff, decide_eq_true_iff]
    simp
  have known : M.marks? e ∈ m.common.map M.marks? ↔ M.marks? e ∈ D := by
    rw [← holds.effects.marks, mem_toFinset]
  have step : m.add unknown (.effect e) =
      .ok (if M.marks? e ∈ D then m else { m with common := m.common ++ [e] }) := by
    have search := anyM_of_ok (holds.search valid)
    rw [found] at search
    cases e with
    | negated => cases valid
    | intercept slot =>
      by_cases old : M.marks? (.intercept slot) ∈ D <;>
        simp [add, search, known, old, ok_bind, pure_ok]
    | term t =>
      by_cases old : M.marks? (.term t) ∈ D <;>
        simp [add, search, known, old, ok_bind, pure_ok]
  rw [step]
  by_cases old : M.marks? e ∈ D
  · rw [if_pos old, Finset.insert_eq_of_mem old]
    exact ⟨m, rfl, holds⟩
  · rw [if_neg old]
    refine ⟨_, rfl, ?_, ?_, holds.grouped, holds.groups, holds.response⟩
    · have single : M.Exprs [e] {M.marks? e} := ⟨by simpa using valid, by simp⟩
      rw [Finset.insert_eq, Finset.union_comm]
      exact holds.effects.append single
    · rw [map_append, nodup_append]
      refine ⟨holds.distinct, nodup_singleton _, ?_⟩
      rintro _ mem _ (last : _ ∈ [_]) rfl
      rw [mem_singleton] at last
      exact old (known.mp (last ▸ mem))

lemma Holds.remove_effect (holds : M.Holds m D G) (valid : M.IsExpr e) :
    ∃ m', m.remove unknown (.effect e) = .ok m' ∧ M.Holds m' (D.erase (M.marks? e)) G := by
  let rest := m.common.eraseP fun d => decide (M.marks? d = M.marks? e)
  have step : m.remove unknown (.effect e) = .ok { m with common := rest } := by
    simp [remove, eraseM_of_ok (holds.search valid), ok_bind, pure_ok, rest]
  have marks : rest.map M.marks? = (m.common.map M.marks?).erase (M.marks? e) := by
    have test : (fun d => decide (M.marks? d = M.marks? e)) = (M.marks? e == ·) ∘ M.marks? := by
      funext d
      rw [Bool.eq_iff_iff, decide_eq_true_iff, Function.comp_apply, beq_iff_eq]
      exact eq_comm
    rw [erase_eq_eraseP, eraseP_map, ← test]
  refine ⟨_, step, ⟨?_, ?_⟩, ?_, holds.grouped, holds.groups, holds.response⟩
  · intro d mem
    exact holds.effects.valid d (mem_of_mem_eraseP mem)
  · rw [marks, ← holds.effects.marks]
    ext x
    simp [holds.distinct.mem_erase_iff]
  · rw [marks]
    exact holds.distinct.erase _

lemma IsGroup.pairs {g : GroupTerm} (group : M.IsGroup g) :
    M.Pairs [g] {M.marks? g.expr} {M.marks g.factor.held} := by
  refine ⟨?_, ?_, ?_⟩
  · simpa using group.expr
  · simpa using group.factor
  · simp

lemma Holds.add_group (holds : M.Holds m D G) (group : M.IsGroup g) :
    ∃ m', m.add unknown (.group g) = .ok m' ∧ M.Holds m' D (insert (M.pair g) G) := by
  have search : ∀ h ∈ m.group, h.same unknown g = .ok (decide (M.pair h = M.pair g)) :=
    fun h mem => (holds.grouped h mem).pairs.same group.pairs mem_cons_self mem_cons_self
  have found : (m.group.any fun h => decide (M.pair h = M.pair g)) = decide (M.pair g ∈ G) := by
    rw [Bool.eq_iff_iff, decide_eq_true_iff, ← holds.groups]
    simp
  have step : m.add unknown (.group g) =
      .ok (if M.pair g ∈ G then m else { m with group := m.group ++ [g] }) := by
    by_cases old : M.pair g ∈ G <;>
      simp [add, anyM_of_ok search, found, old, ok_bind, pure_ok]
  rw [step]
  by_cases old : M.pair g ∈ G
  · rw [if_pos old, Finset.insert_eq_of_mem old]
    exact ⟨m, rfl, holds⟩
  · rw [if_neg old]
    refine ⟨_, rfl, holds.effects, holds.distinct, ?_, ?_, holds.response⟩
    · exact forall_mem_append.mpr ⟨holds.grouped, by simpa using group⟩
    · rw [← holds.groups]
      ext x
      simp

lemma Holds.add_groups {gs : List GroupTerm} (holds : M.Holds m D G) (group : ∀ g ∈ gs, M.IsGroup g) :
    ∃ m', m.editAll unknown (gs.map fun g => .add (.group g)) = .ok m' ∧
      M.Holds m' D (G ∪ (gs.map M.pair).toFinset) := by
  induction gs generalizing m G with
  | nil => exact ⟨m, rfl, by simpa using holds⟩
  | cons g gs ih =>
    obtain ⟨first, others⟩ := forall_mem_cons.mp group
    obtain ⟨m', added, next⟩ := holds.add_group first
    obtain ⟨m'', done, all⟩ := ih next others
    refine ⟨m'', ?_, ?_⟩
    · rw [map_cons, editAll, foldlM_cons, edit, added]
      exact done
    · convert all using 1
      ext x
      simp [or_left_comm]

/-! ### Operands -/

/-- The sum so far: the intercept alone, which is possible only as long as it has not begun, or a model
that holds the sets. -/
inductive Reflects (M : Marking κ) : Operand → Bool → Finset (Option (List κ)) →
    Finset (Option (List κ) × List κ) → Prop
  | intercept (slot : Nat) : Reflects M (.ofEffect (.intercept slot)) false {none} ∅
  | model {m : Model} {D : Finset (Option (List κ))} {G : Finset (Option (List κ) × List κ)}
      (begun : Bool) (holds : M.Holds m D G) : Reflects M (.model m) begun D G

variable {a b : Operand} {begun : Bool}

lemma holds_intercept (slot : Nat) : M.Holds (.ofEffects [.intercept slot]) {none} ∅ := by
  refine ⟨exprs_intercept slot, ?_, ?_, rfl, rfl⟩
  · simp [ofEffects]
  · simp [ofEffects]

/-- A model edited once. -/
lemma delivers_edit {edit : Model.Edit} (begun : Bool)
    (edited : ∃ m', m.edit unknown edit = .ok m' ∧ M.Holds m' E H) :
    Delivers (do return model (← Fit.withKinds (m.editAll · [edit]))) (M.Reflects · begun E H) := by
  obtain ⟨m', done, holds⟩ := edited
  have all : m.editAll unknown [edit] = .ok m' := by
    rw [editAll, foldlM_cons, done]
    rfl
  apply (runs_withKinds_ok all (Q := (· = m')) rfl).bind
  rintro _ rfl
  exact runs_pure (.model begun holds)

/-- The intercept and one more part make the model that adding the part to the intercept makes. -/
lemma delivers_pair (fresh : (ofEffects [.intercept slot]).add unknown p =
      .ok (.ofParts [.effect (.intercept slot), p]))
    (added : ∃ m', (ofEffects [.intercept slot]).add unknown p = .ok m' ∧ M.Holds m' E H) :
    Delivers (pure (.model (.ofParts [.effect (.intercept slot), p]))) (M.Reflects · true E H) := by
  obtain ⟨m', done, holds⟩ := added
  obtain rfl := Except.ok.inj (fresh.symm.trans done)
  exact runs_pure (.model true holds)

lemma Reflects.delivers_addTerm {t : Term} (left : M.Reflects a begun D G) (term : M.IsTerm t) :
    Delivers (operate .add a (.ofTerm t))
      (M.Reflects · true (insert (some (M.marks t.components)) D) G) := by
  have valid : M.IsExpr (.term t) := term
  cases left with
  | intercept slot => exact delivers_pair rfl ((holds_intercept slot).add_effect valid)
  | model _ holds => exact delivers_edit true (holds.add_effect valid)

/-- Nothing can be subtracted from the intercept alone but an intercept. -/
lemma Reflects.delivers_subTerm {t : Term} (left : M.Reflects a true D G) (term : M.IsTerm t) :
    Delivers (operate .sub a (.ofTerm t))
      (M.Reflects · true (D.erase (some (M.marks t.components))) G) := by
  have valid : M.IsExpr (.term t) := term
  cases left with
  | model _ holds => exact delivers_edit true (holds.remove_effect valid)

section

variable (left : M.Reflects a begun D G)
include left

lemma Reflects.delivers_addIntercept (slot : Nat) :
    Delivers (operate .add a (.ofEffect (.intercept slot)))
      (M.Reflects · begun (insert none D) G) := by
  cases left with
  | intercept own => exact runs_pure (.intercept own)
  | model _ holds => exact delivers_edit begun (holds.add_effect (e := .intercept slot) trivial)

lemma Reflects.delivers_subIntercept (slot : Nat) :
    Delivers (operate .sub a (.ofEffect (.intercept slot)))
      (M.Reflects · begun (D.erase none) G) := by
  cases left with
  | intercept own => exact runs_pure (.model _ (by simpa using holds_empty))
  | model _ holds => exact delivers_edit begun (holds.remove_effect (e := .intercept slot) trivial)

/-- The negated intercept takes the intercept away. -/
lemma Reflects.delivers_addNegated :
    Delivers (operate .add a (.ofEffect .negated)) (M.Reflects · begun (D.erase none) G) := by
  cases left with
  | intercept own => exact runs_pure (.model _ (by simpa using holds_empty))
  | @model m _ _ _ holds =>
    have made : Delivers (m.edits .add (.ofEffect .negated)) fun edits =>
        ∃ slot, edits = [.remove (.effect (.intercept slot))] := by
      apply delivers_newIntercept.bind
      rintro _ ⟨slot, rfl⟩
      exact runs_pure ⟨slot, rfl⟩
    apply made.bind
    rintro _ ⟨slot, rfl⟩
    exact delivers_edit begun (holds.remove_effect (e := .intercept slot) trivial)

end

lemma Reflects.delivers_addGroups {gs : List GroupTerm} (left : M.Reflects a begun D G)
    (shape : b.Groups gs) (group : ∀ g ∈ gs, M.IsGroup g) :
    Delivers (operate .add a b) (M.Reflects · true D (G ∪ (gs.map M.pair).toFinset)) := by
  have adding : ∀ {m : Model}, M.Holds m D G → Delivers (do return Operand.model (← Fit.withKinds
      (m.editAll · (gs.map fun g => .add (.group g)))))
        (M.Reflects · true D (G ∪ (gs.map M.pair).toFinset)) := by
    intro m holds
    obtain ⟨m', done, all⟩ := holds.add_groups group
    apply (runs_withKinds_ok done (Q := (· = m')) rfl).bind
    rintro _ rfl
    exact runs_pure (.model true all)
  cases shape with
  | group g =>
    have own : M.IsGroup g := group g mem_cons_self
    cases left with
    | intercept slot =>
      have added := (holds_intercept slot).add_group own
      rw [← Finset.union_singleton] at added
      exact delivers_pair rfl added
    | model _ holds => exact adding holds
  | model gs =>
    have parts : (ofGroups gs).parts.map Model.Edit.add = gs.map fun g => .add (.group g) := by
      simp [parts, ofGroups]
    cases left with
    | intercept slot =>
      have added := adding (holds_intercept slot)
      rw [← parts] at added
      exact added
    | model _ holds =>
      have added := adding holds
      rw [← parts] at added
      exact added

end Marking

end ModelFormula
