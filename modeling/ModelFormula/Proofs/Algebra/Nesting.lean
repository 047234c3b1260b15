import ModelFormula.Proofs.Algebra.Products

/-!
# Nesting

A term nests every term of a sum below itself. A model nests a term below the interaction of all its
components, but of a model on the right the components one by one, so nesting does not distribute
over sums in general.
-/
namespace ModelFormula

open List Operand

open Component (unknown)

variable {κ : Type} [DecidableEq κ]

namespace Outline

/-- What nesting an operand adds to the terms on its left. -/
def nested : Outline κ → Outline κ → List (List κ)
  | term s, R => R.lists.map (joined s)
  | model ss, term r => [joined ss.flatten r]
  | model ss, model rs => rs.flatten.map fun k => joined ss.flatten [k]

/-- A term nested below itself is that term; anything else is collected in a model. -/
def nest : Outline κ → Outline κ → Outline κ
  | term s, term r => if s = r then term s else model [s, joined s r]
  | S, R => model (collected S.lists (S.nested R))

variable {s : List κ}

lemma mem_lists_nest {S : Outline κ} (nodup : ∀ p ∈ S.lists, p.Nodup) (R : Outline κ) :
    s ∈ (S.nest R).lists ↔ s ∈ S.lists ∨ s ∈ S.nested R := by
  cases S with
  | model ss => cases R <;> exact mem_collected
  | term p =>
    cases R with
    | model rs => exact mem_collected
    | term r =>
      by_cases eq : p = r
      · have self : joined r r = r := joined_self (eq ▸ nodup p (by simp [lists]))
        simp [nest, nested, lists, eq, self]
      · simp [nest, nested, lists, eq]

lemma mem_lists_add_nest {S : Outline κ} (nodup : ∀ p ∈ S.lists, p.Nodup) (R T : Outline κ) :
    s ∈ ((S.nest R).add (S.nest T)).lists ↔ s ∈ S.lists ∨ s ∈ S.nested R ∨ s ∈ S.nested T := by
  rw [mem_lists_add, mem_lists_nest nodup, mem_lists_nest nodup]
  tauto

/-- Not a single interaction. -/
def Plain : Outline κ → Prop
  | term s => ∃ k, s = [k]
  | model _ => True

omit [DecidableEq κ] in
lemma Plain.of_ne {R : Outline κ} (several : ∀ s, R ≠ term s) : R.Plain := by
  cases R with
  | term r => exact absurd rfl (several r)
  | model => trivial

lemma Plain.mem_nested {R : Outline κ} (plain : R.Plain) (ss : List (List κ)) (s : List κ) :
    s ∈ (model ss).nested R ↔ ∃ k ∈ R.lists.flatten, joined ss.flatten [k] = s := by
  cases R with
  | model rs => exact mem_map
  | term r =>
    obtain ⟨k, rfl⟩ := plain
    simp [nested, lists, eq_comm]

lemma mem_flatten_add {k : κ} (R T : Outline κ) :
    k ∈ (R.add T).lists.flatten ↔ k ∈ R.lists.flatten ∨ k ∈ T.lists.flatten := by
  simp only [mem_flatten, mem_lists_add, or_and_right, exists_or]

/-- Only equal terms have a term as their sum. -/
lemma eq_of_add_eq_term {R T : Outline κ} (single : R.add T = term s) :
    R = term s ∧ T = term s := by
  cases R with
  | model => cases single
  | term r =>
    cases T with
    | model => cases single
    | term t =>
      by_cases eq : r = t
      · simp only [add, eq, if_true, term.injEq] at single
        simp [eq, single]
      · simp [add, eq] at single

/-- The left side is a term, or both sides of the sum are the same or no single interactions. -/
def Distributes (S R T : Outline κ) : Prop := (∃ s, S = term s) ∨ R = T ∨ R.Plain ∧ T.Plain

lemma mem_nested_add {S R T : Outline κ} (distributes : S.Distributes R T) (s : List κ) :
    s ∈ S.nested (R.add T) ↔ s ∈ S.nested R ∨ s ∈ S.nested T := by
  cases S with
  | term p =>
    -- a term goes over the terms of the sum, whatever their order
    simp only [nested, mem_map, mem_lists_add, or_and_right, exists_or]
  | model ss =>
    by_cases single : ∃ r, R.add T = term r
    · obtain ⟨r, sum⟩ := single
      obtain ⟨rfl, rfl⟩ := eq_of_add_eq_term sum
      rw [sum, or_self]
    · have several : ∀ r, R.add T ≠ term r := fun r eq => single ⟨r, eq⟩
      rw [(Plain.of_ne several).mem_nested]
      rcases distributes with ⟨p, impossible⟩ | rfl | ⟨left, right⟩
      · cases impossible
      · -- the sum of a model with itself has the same components
        have own : ∀ r, R ≠ term r := by
          rintro r rfl
          exact several r (by simp [add])
        simp only [mem_flatten_add, or_self, (Plain.of_ne own).mem_nested]
      · simp only [mem_flatten_add, left.mem_nested, right.mem_nested, or_and_right, exists_or]

lemma mem_joined {k : κ} {s r : List κ} : k ∈ joined s r ↔ k ∈ s ∨ k ∈ r := by
  simp [joined, mem_eraseDups]

/-- An interaction that brings two new marks under a model is not among what the sum brings. -/
lemma not_mem_nested_add {ss : List (List κ)} {r : List κ} {k k' : κ} {R T : Outline κ}
    (own : k ∈ r) (own' : k' ∈ r) (apart : k ≠ k') (new : k ∉ ss.flatten) (new' : k' ∉ ss.flatten)
    (several : ∀ p, R.add T ≠ term p) :
    joined ss.flatten r ∉ ss ∧ joined ss.flatten r ∉ (model ss).nested (R.add T) := by
  have brings : k ∈ joined ss.flatten r := mem_joined.mpr (.inr own)
  have brings' : k' ∈ joined ss.flatten r := mem_joined.mpr (.inr own')
  constructor
  · intro mem
    exact new (mem_flatten.mpr ⟨_, mem, brings⟩)
  · intro mem
    obtain ⟨j, _, eq⟩ := ((Plain.of_ne several).mem_nested ss _).mp mem
    rw [← eq, mem_joined, mem_singleton] at brings brings'
    -- a single component cannot be both of them
    have first : k = j := brings.resolve_left new
    have second : k' = j := brings'.resolve_left new'
    exact apart (first.trans second.symm)

end Outline

/-! ### Nesting of operands -/

namespace Marking

variable {M : Marking κ} {a b : Operand} {ts us : List Term} {ss rs : List (List κ)}
  {S R : Outline κ}

lemma Ordered.nodup (ordered : M.Ordered ts ss) : ∀ s ∈ ss, s.Nodup := by
  intro s mem
  rw [← ordered.marks] at mem
  obtain ⟨t, own, rfl⟩ := mem_map.mp mem
  exact (ordered.terms t own).nodup

lemma Draws.nodup (drawn : M.Draws a S) : ∀ s ∈ S.lists, s.Nodup := by
  cases drawn with
  | term ordered | model ordered => exact ordered.nodup

/-- The components of all terms of a model, one term after the other. -/
lemma Ordered.commonComponents (ordered : M.Ordered ts ss) :
    (∀ c ∈ (Model.ofTerms ts).commonComponents, M.Has c.atom) ∧
      M.marks (Model.ofTerms ts).commonComponents = ss.flatten := by
  have all : (Model.ofTerms ts).commonComponents = ts.flatMap (·.components) := by
    simp [Model.commonComponents, Model.ofTerms, flatMap_map, Effect.term?]
  rw [all]
  constructor
  · intro c mem
    obtain ⟨t, own, inside⟩ := mem_flatMap.mp mem
    exact (ordered.terms t own).has c inside
  · rw [← ordered.marks]
    simp [Marking.marks, flatMap_def, Function.comp_def]

/-- The interaction of all components of a model with further ones. -/
lemma Ordered.delivers_merged (ordered : M.Ordered ts ss) (has : ∀ c ∈ cs, M.Has c.atom) :
    Delivers (Fit.newTerm ((Model.ofTerms ts).commonComponents ++ cs)) fun t =>
      M.IsTerm t ∧ M.marks t.components = joined ss.flatten (M.marks cs) := by
  obtain ⟨own, marks⟩ := ordered.commonComponents
  have all : M.marks ((Model.ofTerms ts).commonComponents ++ cs) = ss.flatten ++ M.marks cs := by
    rw [← marks]
    simp [Marking.marks]
  rw [joined, ← all]
  exact delivers_newTerm (forall_mem_append.mpr ⟨own, has⟩)

lemma delivers_nest (left : M.Draws a S) (right : M.Draws b R) :
    Delivers (operate .nest a b) fun o => M.Draws o (S.nest R) := by
  cases left with
  | @term t s ordered =>
    obtain ⟨term, rfl⟩ := ordered.isTerm
    cases right with
    | @term u r ordered' =>
      obtain ⟨term', rfl⟩ := ordered'.isTerm
      apply (delivers_sameAs term term').bind
      rintro _ rfl
      by_cases eq : M.marks t.components = M.marks u.components
      · simp only [eq, Outline.nest, decide_true, if_true]
        rw [← eq]
        exact runs_pure (draws_term term)
      · simp only [eq, Outline.nest, decide_false, Bool.false_eq_true, if_false]
        simp only [ofTerm, term'.not_number, Bool.false_eq_true, if_false]
        apply (delivers_interactionOf term term').bind
        rintro v ⟨made, marks⟩
        rw [← marks]
        exact runs_pure (.model (ordered.append (ordered_singleton made)))
    | @model us rs ordered' =>
      apply (delivers_sameAs_model t _).bind
      rintro _ rfl
      apply (delivers_interactions ordered ordered').bind
      intro vs made
      have row : products [M.marks t.components] rs = rs.map (joined (M.marks t.components)) := by
        simp [products]
      rw [row] at made
      exact delivers_add (.term ordered) (.model made)
  | @model ts ss ordered =>
    cases right with
    | @term u r ordered' =>
      obtain ⟨term', rfl⟩ := ordered'.isTerm
      apply Runs.bind (Q := fun edits => ∃ v, edits = Model.addEdits [v] ∧
        M.Ordered [v] [joined ss.flatten (M.marks u.components)])
      · apply (ordered.delivers_merged term'.has).bind
        rintro v ⟨made, marks⟩
        rw [← marks]
        exact runs_pure ⟨v, rfl, ordered_singleton made⟩
      · rintro _ ⟨v, rfl, made⟩
        exact delivers_editAll ordered made
    | @model us rs ordered' =>
      obtain ⟨has, marks⟩ := ordered'.commonComponents
      apply Runs.bind (Q := fun edits => ∃ vs, edits = Model.addEdits vs ∧
        M.Ordered vs (rs.flatten.map fun k => joined ss.flatten [k]))
      · have each : ∀ c ∈ (Model.ofTerms us).commonComponents,
            Delivers (Fit.newTerm ((Model.ofTerms ts).commonComponents ++ [c])) fun v =>
              M.IsTerm v ∧ M.marks v.components = joined ss.flatten [M.mark c.atom] := by
          intro c mem
          exact ordered.delivers_merged (by simpa using has c mem)
        apply (runs_mapM each).bind
        intro vs made
        apply runs_pure
        refine ⟨vs, rfl, ?_⟩
        have merged := ordered_of_forall₂ made
        rw [← marks, Marking.marks, map_map]
        exact merged
      · rintro _ ⟨vs, rfl, made⟩
        exact delivers_editAll ordered made

/-- Operands have the same terms if their outlines have the same lists. -/
lemma Draws.sameTerms_iff (left : M.Draws a S) (right : M.Draws b R) :
    a.SameTerms b ↔ ∀ s, s ∈ S.lists ↔ s ∈ R.lists := by
  obtain ⟨ts, shape, lists⟩ := left.collects
  obtain ⟨us, shape', lists'⟩ := right.collects
  constructor
  · rintro ⟨ts', us', own, own', forth, back⟩
    obtain rfl := own.unique shape
    obtain rfl := own'.unique shape'
    intro s
    rw [← mem_toFinset, ← mem_toFinset, ← lists.marks, ← lists'.marks]
    simp only [mem_toFinset, mem_map]
    constructor
    · rintro ⟨t, mem, rfl⟩
      obtain ⟨u, other, eq⟩ := forth t mem
      refine ⟨u, other, ?_⟩
      rw [(lists.terms t mem).same (lists'.terms u other), Except.ok.injEq] at eq
      exact (of_decide_eq_true eq).symm
    · rintro ⟨u, mem, rfl⟩
      obtain ⟨t, other, eq⟩ := back u mem
      refine ⟨t, other, ?_⟩
      rw [(lists'.terms u mem).same (lists.terms t other), Except.ok.injEq] at eq
      exact (of_decide_eq_true eq).symm
  · intro same
    have sets : S.lists.toFinset = R.lists.toFinset := by
      ext s
      simpa using same s
    rw [sets] at lists
    exact Collects.sameTerms ⟨ts, shape, lists⟩ ⟨us, shape', lists'⟩

end Marking

/-! ### Nesting of trees -/

/-- The nesting of a sum, and the sum of two nestings. -/
lemma Expr.delivers_nesting (M : Marking κ) (isPlus : plus.kind = .plus)
    (isSlash : slash.kind = .slash) (first : A.Sums M.Has) (second : B.Sums M.Has)
    (third : C.Sums M.Has) :
    let a := A.outline M.mark
    let b := B.outline M.mark
    let c := C.outline M.mark
    Delivers (ofExpr (.binary A slash (.grouping (.binary B plus C))))
        (fun o => M.Draws o (a.nest (b.add c))) ∧
      Delivers (ofExpr (.binary (.binary A slash B) plus (.binary A slash C)))
        fun o => M.Draws o ((a.nest b).add (a.nest c)) := by
  intro a b c
  have nesting : ∀ {L R : Expr} {S T : Outline κ}, Delivers (ofExpr L) (M.Draws · S) →
      Delivers (ofExpr R) (M.Draws · T) →
      Delivers (ofExpr (.binary L slash R)) (M.Draws · (S.nest T)) := by
    intro L R S T left right
    exact runs_operation isSlash rfl left right fun _ _ => Marking.delivers_nest
  have sum : ∀ {L R : Expr} {S T : Outline κ}, Delivers (ofExpr L) (M.Draws · S) →
      Delivers (ofExpr R) (M.Draws · T) →
      Delivers (ofExpr (.binary L plus R)) (M.Draws · (S.add T)) := by
    intro L R S T left right
    exact runs_operation isPlus rfl left right fun _ _ => Marking.delivers_add
  have left := delivers_outline M A first
  have middle := delivers_outline M B second
  have right := delivers_outline M C third
  constructor
  · apply nesting left
    rw [ofExpr]
    exact sum middle right
  · exact sum (nesting left middle) (nesting left right)

/-- Nesting `A / (B + C)` and the sum `A / B + A / C` of names are both resolved. Each has the terms of
`A`, and what nesting adds to them. They have the same terms if `A` is a single term, if `B` and `C`
have the same outline, or if neither of them is a single interaction. They have not if `A` is a
model, `B` and `C` differ and one of them is a single interaction with two variables that `A` lacks. -/
theorem ofExpr_nesting {A B C : Expr} {plus slash : Token} {σ : Store}
    (isPlus : plus.kind = .plus) (isSlash : slash.kind = .slash) (first : A.Sums Atom.IsNamed)
    (second : B.Sums Atom.IsNamed) (third : C.Sums Atom.IsNamed) (untyped : σ.Untyped) :
    let a := A.outline Atom.label
    let b := B.outline Atom.label
    let c := C.outline Atom.label
    ∃ l τ r ω, Ends (ofExpr (.binary A slash (.grouping (.binary B plus C)))) σ l τ ∧
      Ends (ofExpr (.binary (.binary A slash B) plus (.binary A slash C))) σ r ω ∧
      Marking.names.Collects l (a.lists ++ a.nested (b.add c)).toFinset ∧
      Marking.names.Collects r (a.lists ++ (a.nested b ++ a.nested c)).toFinset ∧
      (a.Distributes b c → l.SameTerms r) ∧
      ∀ ss s, a = .model ss → b ≠ c → b = .term s ∨ c = .term s →
        (∃ k ∈ s, ∃ k' ∈ s, k ≠ k' ∧ k ∉ ss.flatten ∧ k' ∉ ss.flatten) → ¬ l.SameTerms r := by
  intro a b c
  obtain ⟨nesting, sum⟩ := Expr.delivers_nesting Marking.names isPlus isSlash first second third
  obtain ⟨l, τ, ends, _, (drawn : Marking.names.Draws l (a.nest (b.add c)))⟩ := nesting.ends untyped
  obtain ⟨r, ω, ends', _, (drawn' : Marking.names.Draws r ((a.nest b).add (a.nest c)))⟩ :=
    sum.ends untyped
  obtain ⟨_, _, _, _, own⟩ := (Expr.delivers_outline Marking.names A first).ends untyped
  have nodup : ∀ s ∈ a.lists, s.Nodup := own.nodup
  refine ⟨l, τ, r, ω, ends, ends', ?_, ?_, ?_, ?_⟩
  · convert drawn.collects using 1
    ext s
    simp [Outline.mem_lists_nest nodup]
  · convert drawn'.collects using 1
    ext s
    simp [Outline.mem_lists_add_nest nodup]
  · intro distributes
    rw [drawn.sameTerms_iff drawn']
    intro s
    rw [Outline.mem_lists_nest nodup, Outline.mem_lists_add_nest nodup,
      Outline.mem_nested_add distributes]
  · rintro ss s shape different single ⟨k, inside, k', inside', apart, new, new'⟩ same
    rw [drawn.sameTerms_iff drawn'] at same
    have several : ∀ p, b.add c ≠ .term p := by
      intro p equal
      obtain ⟨isTerm, isTerm'⟩ := Outline.eq_of_add_eq_term equal
      exact different (isTerm.trans isTerm'.symm)
    obtain ⟨notOld, notNew⟩ := Outline.not_mem_nested_add inside inside' apart new new' several
    have brought : joined ss.flatten s ∈ ((a.nest b).add (a.nest c)).lists := by
      rw [Outline.mem_lists_add_nest nodup, shape]
      rcases single with isTerm | isTerm
      · simp [isTerm, Outline.nested]
      · simp [isTerm, Outline.nested]
    have missing := (Outline.mem_lists_nest nodup _).mp ((same _).mpr brought)
    rw [shape] at missing
    exact missing.elim notOld notNew

/-- In `(x + y) / ((u:v + z) + w)` the interaction stands in a model and comes apart on both sides. -/
theorem ofExpr_nesting_models :
    let var := fun s : String => Expr.name ⟨.identifier, s, none⟩
    let plus : Token := ⟨.plus, "+", none⟩
    let slash : Token := ⟨.slash, "/", none⟩
    let sum := fun a b => Expr.grouping (.binary a plus b)
    let A := sum (var "x") (var "y")
    let B := sum (.binary (var "u") ⟨.colon, ":", none⟩ (var "v")) (var "z")
    let C := var "w"
    ∃ l τ r ω, Ends (ofExpr (.binary A slash (.grouping (.binary B plus C)))) {} l τ ∧
      Ends (ofExpr (.binary (.binary A slash B) plus (.binary A slash C))) {} r ω ∧
      l.SameTerms r := by
  intro var plus slash sum A B C
  have first : A.Sums Atom.IsNamed := ⟨.inl rfl, isNamed _, isNamed _⟩
  have second : B.Sums Atom.IsNamed := ⟨.inl rfl, ⟨.inr rfl, isNamed _, isNamed _⟩, isNamed _⟩
  have third : C.Sums Atom.IsNamed := isNamed _
  obtain ⟨l, τ, r, ω, ends, ends', _, _, same, _⟩ :=
    ofExpr_nesting (rfl : plus.kind = _) (rfl : slash.kind = _) first second third
      Store.untyped_empty
  refine ⟨l, τ, r, ω, ends, ends', same (.inr (.inr ⟨?_, ?_⟩))⟩
  · trivial
  · exact ⟨_, rfl⟩

/-- In `(x + y) / (u:v + w)` the interaction comes apart, but not in `(x + y) / u:v + (x + y) / w`. -/
theorem nesting_of_interaction :
    let var := fun s : String => Expr.name ⟨.identifier, s, none⟩
    let sum := fun a b => Expr.binary a ⟨.plus, "+", none⟩ b
    let nest := fun a b => Expr.binary a ⟨.slash, "/", none⟩ b
    let A := Expr.grouping (sum (var "x") (var "y"))
    let B := Expr.binary (var "u") ⟨.colon, ":", none⟩ (var "v")
    let C := var "w"
    ∃ l τ r ω, Ends (ofExpr (nest A (.grouping (sum B C)))) {} l τ ∧
      Ends (ofExpr (sum (nest A B) (nest A C))) {} r ω ∧ ¬ l.SameTerms r := by
  intro var sum nest A B C
  let sizes : Operand → List Nat := fun o => o.effects.map (·.held.length)
  obtain ⟨l, τ, ends, small⟩ : ∃ l τ, Ends (ofExpr (nest A (.grouping (sum B C)))) {} l τ ∧
      sizes l = [1, 1, 3, 3, 3] := exists_ends (by cbv)
  obtain ⟨r, ω, ends', large⟩ : ∃ r ω, Ends (ofExpr (sum (nest A B) (nest A C))) {} r ω ∧
      sizes r = [1, 1, 4, 3] := exists_ends (by cbv)
  refine ⟨l, τ, r, ω, ends, ends', ?_⟩
  -- the interaction of four has no equal on the left
  intro same
  have four : 4 ∈ sizes l := SameTerms.size same (show 4 ∈ sizes r by rw [large]; decide)
  rw [small] at four
  simp at four

end ModelFormula
