import ModelFormula.Proofs.Algebra.Powers

/-!
# Differences

Every term on the right of `-` takes away one equal term, the first that is found. What is left is
the difference of two lists, which is that of the sets exactly where no term of the right side
occurs more often on the left.
-/
namespace ModelFormula

open List Operand

open Component (unknown)

variable {κ : Type} [DecidableEq κ]

/-! ### Lists -/

lemma anyM_map {α β : Type} (f : α → β) (test : β → Except Fault Bool) (xs : List α) :
    anyM test (xs.map f) = anyM (fun x => test (f x)) xs := by
  induction xs with
  | nil => rfl
  | cons x xs ih => rw [map_cons, anyM, anyM, ih]

omit [DecidableEq κ] in
/-- A list item stays if it occurs more often than it is taken away. -/
lemma mem_diff_iff_count [BEq κ] [LawfulBEq κ] {ss rs : List κ} {s : κ} :
    s ∈ ss.diff rs ↔ rs.count s < ss.count s := by
  rw [← count_pos_iff, count_diff]
  omega

/-- Taking away one by one leaves the difference of the sets if nothing that is taken away occurs
more often than it is taken away, and only then. -/
lemma toFinset_diff_eq_sdiff_iff [BEq κ] [LawfulBEq κ] (ss rs : List κ) :
    (ss.diff rs).toFinset = ss.toFinset \ rs.toFinset ↔ ∀ r ∈ rs, ss.count r ≤ rs.count r := by
  constructor
  · intro sets r taken
    have gone : r ∉ (ss.diff rs).toFinset := by
      rw [sets]
      simp [taken]
    rw [mem_toFinset, mem_diff_iff_count] at gone
    omega
  · intro few
    ext s
    rw [mem_toFinset, mem_diff_iff_count, Finset.mem_sdiff, mem_toFinset, mem_toFinset]
    by_cases taken : s ∈ rs
    · have bound := few s taken
      simp only [taken, not_true, and_false, iff_false]
      omega
    · rw [count_eq_zero.mpr taken, count_pos_iff]
      simp [taken]

/-! ### Outlines -/

namespace Outline

lemma nodup_add {S : Outline κ} (nodup : S.lists.Nodup) (R : Outline κ) :
    (S.add R).lists.Nodup := by
  have collecting : ∀ rs, (collected S.lists rs).Nodup := by
    intro rs
    rw [collected_eq_eraseDups nodup]
    exact nodup_eraseDups _
  cases S with
  | model ss => exact collecting R.lists
  | term s =>
    cases R with
    | model rs => exact collecting rs
    | term r => by_cases eq : s = r <;> simp [add, lists, eq]

end Outline

namespace Marking

variable {M : Marking κ} {a b : Operand} {ts us : List Term} {S R : Outline κ}

lemma Draws.consists (drawn : M.Draws a S) : ∃ ts, a.Consists ts ∧ M.Ordered ts S.lists := by
  cases drawn with
  | @term t s ordered => exact ⟨[t], .term t, ordered⟩
  | @model ts ss ordered => exact ⟨ts, .model ts, ordered⟩

/-- Removing a term takes away the first one that is equal to it. -/
lemma Ordered.remove (ordered : M.Ordered ts ss) (term : M.IsTerm u) :
    ∃ vs, (Model.ofTerms ts).remove unknown (.effect (.term u)) = .ok (.ofTerms vs) ∧
      M.Ordered vs (ss.erase (M.marks u.components)) := by
  let eq : Term → Bool := fun t => M.marks t.components == M.marks u.components
  have search : eraseM (Effect.same unknown · (.term u)) (ts.map .term) =
      .ok ((ts.eraseP eq).map .term) := by
    have each : ∀ e ∈ ts.map Effect.term, e.same unknown (.term u) =
        .ok (decide (M.marks? e = some (M.marks u.components))) := by
      intro e mem
      obtain ⟨t, own, rfl⟩ := mem_map.mp mem
      simp [Effect.same, (ordered.terms t own).same term, marks?, Effect.term?]
    rw [eraseM_of_ok each, eraseP_map]
    congr 3
    funext t
    simp [eq, marks?, Effect.term?, Bool.beq_eq_decide_eq]
  refine ⟨ts.eraseP eq, ?_, ?_⟩
  · simp [Model.remove, Model.ofTerms, search, ok_bind, pure_ok]
  · constructor
    · exact fun t mem => ordered.terms t (mem_of_mem_eraseP mem)
    · rw [← ordered.marks, erase_eq_eraseP, eraseP_map]
      congr 2
      funext t
      simp [eq, Bool.beq_comm]

lemma Ordered.removeAll (left : M.Ordered ts ss) (right : M.Ordered us rs) :
    ∃ vs, (Model.ofTerms ts).editAll unknown (us.map fun u => .remove (.effect (.term u))) =
        .ok (.ofTerms vs) ∧ M.Ordered vs (ss.diff rs) := by
  induction us generalizing ts ss rs with
  | nil =>
    obtain rfl : rs = [] := right.marks.symm
    exact ⟨ts, rfl, left⟩
  | cons u us ih =>
    obtain ⟨first, others⟩ := forall_mem_cons.mp right.terms
    obtain ⟨vs, removed, ordered⟩ := left.remove first
    obtain ⟨ws, done, all⟩ := ih ordered ⟨others, rfl⟩
    refine ⟨ws, ?_, ?_⟩
    · rw [map_cons, Model.editAll, foldlM_cons, Model.edit, removed]
      exact done
    · rw [← right.marks, map_cons, diff_cons]
      exact all

lemma diff_singleton (s : List κ) (rs : List (List κ)) :
    [s].diff rs = if s ∈ rs then [] else [s] := by
  rw [cons_diff, nil_diff, nil_diff]

/-- What is left of one operand when the terms of another are taken away. -/
lemma delivers_sub (left : M.Draws a S) (right : M.Draws b R) :
    Delivers (operate .sub a b) fun o =>
      ∃ T, M.Draws o T ∧ T.lists = S.lists.diff R.lists := by
  cases left with
  | @term t s ordered =>
    obtain ⟨term, rfl⟩ := ordered.isTerm
    -- a term stays as it is, or nothing is left of it
    have settle : ∀ (found : Bool) (rs : List (List κ)),
        found = decide (M.marks t.components ∈ rs) →
        Delivers (pure (if found then model {} else .ofTerm t)) fun o =>
          ∃ T, M.Draws o T ∧ T.lists = [M.marks t.components].diff rs := by
      rintro _ rs rfl
      apply runs_pure
      rw [diff_singleton]
      by_cases known : M.marks t.components ∈ rs
      · simp only [known, decide_true, if_true]
        have nothing : M.Ordered [] [] := ⟨by simp, rfl⟩
        exact ⟨.model [], .model nothing, rfl⟩
      · simp only [known, decide_false, Bool.false_eq_true, if_false]
        exact ⟨_, draws_term term, rfl⟩
    cases right with
    | @term u r ordered' =>
      obtain ⟨term', rfl⟩ := ordered'.isTerm
      apply (runs_withKinds_ok (Q := (· = decide (M.marks t.components = M.marks u.components)))
        (term.same term') rfl).bind
      rintro _ rfl
      exact settle _ [M.marks u.components] (by simp)
    | @model us rs ordered' =>
      have search : anyM (Part.same unknown · (.effect (.term t))) (Model.ofTerms us).parts =
          .ok (decide (M.marks t.components ∈ rs)) := by
        have parts : (Model.ofTerms us).parts = us.map fun u => .effect (.term u) := by
          simp [Model.ofTerms, Model.parts]
        have each : ∀ u ∈ us, (Part.effect (.term u)).same unknown (.effect (.term t)) =
            .ok (decide (M.marks u.components = M.marks t.components)) := by
          intro u own
          simp [Part.same, Effect.same, (ordered'.terms u own).same term]
        rw [parts, anyM_map, anyM_of_ok each, ← ordered'.marks]
        congr 1
        rw [Bool.eq_iff_iff, decide_eq_true_iff]
        simp
      apply (runs_withKinds_ok (Q := (· = decide (M.marks t.components ∈ rs))) search rfl).bind
      rintro _ rfl
      exact settle _ rs rfl
  | @model ts ss ordered =>
    have removing : ∀ {us rs}, M.Ordered us rs →
        Delivers (do return model (← Fit.withKinds ((Model.ofTerms ts).editAll ·
          (us.map fun u => .remove (.effect (.term u)))))) fun o =>
            ∃ T, M.Draws o T ∧ T.lists = ss.diff rs := by
      intro us rs ordered'
      obtain ⟨vs, done, all⟩ := ordered.removeAll ordered'
      apply (runs_withKinds_ok done (Q := (· = Model.ofTerms vs)) rfl).bind
      rintro _ rfl
      exact runs_pure ⟨.model (ss.diff rs), .model all, rfl⟩
    cases right with
    | term ordered' => exact removing ordered'
    | @model us rs ordered' =>
      have parts : (Model.ofTerms us).parts.map Model.Edit.remove =
          us.map fun u => .remove (.effect (.term u)) := by
        simp [Model.ofTerms, Model.parts]
      have removed := removing ordered'
      rw [← parts] at removed
      exact removed

/-- Operands whose components can be hashed have a product. -/
lemma delivers_product (keys : ∀ c : Component, M.Has c.atom → ∃ k, c.key unknown = .ok k)
    (left : M.Draws a S) (right : M.Draws b R) :
    Delivers (operate .mul a b) fun o => ∃ T, M.Draws o T := by
  obtain ⟨r, compared⟩ := left.collects.exists_same right.collects (.inr (.inr keys))
  cases r with
  | true =>
    apply (delivers_mul_self left.collects compared).imp
    rintro _ rfl
    exact ⟨S, left⟩
  | false =>
    apply (delivers_mul left.collects right.collects compared).imp
    rintro o ⟨ts, consists, lists⟩
    cases consists with
    | term t => exact ⟨_, draws_term (lists.terms t mem_cons_self)⟩
    | model ts => exact ⟨_, .model lists.ordered⟩

end Marking

/-! ### Trees -/

namespace Expr

/-- Variables with the property, put together by `+`, `-`, `:`, `*` and parentheses. -/
def Algebraic (P : Atom → Prop) : Expr → Prop
  | .grouping e => Algebraic P e
  | .unary o e => o.kind = .plus ∧ Algebraic P e
  | .binary l o r =>
    (o.kind = .plus ∨ o.kind = .minus ∨ o.kind = .colon ∨ o.kind = .star) ∧
      Algebraic P l ∧ Algebraic P r
  | .name t => P (.variable (.text t.lexeme) none)
  | .quotedName t => P (.variable (.text (unquote t.lexeme)) none)
  | .subset t level => ∃ v, levelValue level = .ok v ∧ P (.variable (.text t.lexeme) (some v))
  | _ => False

/-- A variable, to which trees are added and from which trees are taken away one after the other. -/
def Cumulative : Expr → Prop
  | .grouping e => Cumulative e
  | .unary _ e => Cumulative e
  | .binary l o _ => (o.kind = .plus ∨ o.kind = .minus) ∧ Cumulative l
  | _ => True

/-- The operand is made of marked terms, and those of a cumulative tree are distinct. -/
def Resolves (M : Marking κ) (e : Expr) (o : Operand) : Prop :=
  ∃ S, M.Draws o S ∧ (e.Cumulative → S.lists.Nodup)

section Resolution

variable {M : Marking κ}

lemma delivers_atom {a : Atom} {e : Expr} (has : M.Has a) :
    Delivers (ofAtom a) (e.Resolves M) := by
  apply (Marking.delivers_ofAtom has).imp
  intro o drawn
  exact ⟨_, drawn, fun _ => nodup_singleton _⟩

/-- One operator on resolved operands. -/
lemma exists_operator (keys : ∀ c : Component, M.Has c.atom → ∃ k, c.key unknown = .ok k)
    (kind : o.kind = .plus ∨ o.kind = .minus ∨ o.kind = .colon ∨ o.kind = .star) :
    ∃ op, operator? o.kind = some op ∧ ∀ a b, l.Resolves M a → r.Resolves M b →
      Delivers (operate op a b) ((Expr.binary l o r).Resolves M) := by
  rcases kind with plus | minus | colon | star
  · refine ⟨.add, by rw [plus]; rfl, ?_⟩
    rintro a b ⟨S, drawn, nodup⟩ ⟨R, drawn', _⟩
    apply (Marking.delivers_add drawn drawn').imp
    intro o sum
    exact ⟨_, sum, fun chain => Outline.nodup_add (nodup chain.2) R⟩
  · refine ⟨.sub, by rw [minus]; rfl, ?_⟩
    rintro a b ⟨S, drawn, nodup⟩ ⟨R, drawn', _⟩
    apply (Marking.delivers_sub drawn drawn').imp
    rintro o ⟨T, difference, lists⟩
    refine ⟨T, difference, fun chain => ?_⟩
    rw [lists]
    exact (nodup chain.2).diff
  · refine ⟨.interact, by rw [colon]; rfl, ?_⟩
    rintro a b ⟨S, drawn, _⟩ ⟨R, drawn', _⟩
    apply (Marking.delivers_interact drawn drawn').imp
    intro o interaction
    exact ⟨_, interaction, fun chain => by simp [Cumulative, colon] at chain⟩
  · refine ⟨.mul, by rw [star]; rfl, ?_⟩
    rintro a b ⟨S, drawn, _⟩ ⟨R, drawn', _⟩
    apply (Marking.delivers_product keys drawn drawn').imp
    rintro o ⟨T, product⟩
    exact ⟨T, product, fun chain => by simp [Cumulative, star] at chain⟩

/-- Such a tree is always resolved. -/
lemma delivers_algebraic (keys : ∀ c : Component, M.Has c.atom → ∃ k, c.key unknown = .ok k) :
    ∀ e : Expr, e.Algebraic M.Has → Delivers (ofExpr e) (e.Resolves M)
  | .grouping e, algebraic => by
    rw [ofExpr]
    exact delivers_algebraic keys e algebraic
  | .unary o e, ⟨plus, algebraic⟩ => by
    rw [ofExpr]
    simp only [plus]
    exact delivers_algebraic keys e algebraic
  | .binary l o r, ⟨kind, left, right⟩ => by
    obtain ⟨op, read, operates⟩ := exists_operator keys kind
    have first := delivers_algebraic keys l left
    have second := delivers_algebraic keys r right
    exact runs_operation rfl read first second operates
  | .name t, has | .quotedName t, has => by
    rw [ofExpr]
    exact delivers_atom has
  | .subset t level, ⟨v, value, has⟩ => by
    rw [ofExpr]
    simp only [value]
    apply (runs_lift_ok (Q := (· = v)) rfl rfl).bind
    rintro _ rfl
    exact delivers_atom has

end Resolution

/-- Named variables can be hashed. -/
lemma exists_key_of_isNamed (c : Component) (named : c.atom.IsNamed) :
    ∃ k, c.key unknown = .ok k := by
  obtain ⟨slot, _⟩ := c
  obtain ⟨name, level, rfl⟩ := named
  exact ⟨_, rfl⟩

/-- Two trees of variables, `+`, `-`, `:` and `*` are resolved, and so is their difference. Every term
of the right side takes one equal term of the left side away, the first one, and the others stay in
their order. The set of the terms that stay is the difference of the sets of terms exactly if no term
of the right side occurs more often on the left than on the right; it always is where the left side
begins with a variable and goes on with `+` and `-` only. -/
theorem ofExpr_difference {A B : Expr} {minus : Token} {σ : Store} (isMinus : minus.kind = .minus)
    (left : A.Algebraic Atom.IsNamed) (right : B.Algebraic Atom.IsNamed) (untyped : σ.Untyped) :
    ∃ a ρ b ρ' d τ ts us vs, Ends (ofExpr A) σ a ρ ∧ Ends (ofExpr B) ρ b ρ' ∧
      Ends (ofExpr (.binary A minus B)) σ d τ ∧
      a.Consists ts ∧ b.Consists us ∧ d.Consists vs ∧
      let terms := List.map fun t : Term => t.components.map (·.atom.label)
      terms vs = (terms ts).diff (terms us) ∧
      ((terms vs).toFinset = (terms ts).toFinset \ (terms us).toFinset ↔
        ∀ s ∈ terms us, (terms ts).count s ≤ (terms us).count s) ∧
      (A.Cumulative → (terms vs).toFinset = (terms ts).toFinset \ (terms us).toFinset) := by
  let M := Marking.names
  obtain ⟨a, ρ, first, untyped', S, drawn, distinct⟩ :=
    (delivers_algebraic (M := M) exists_key_of_isNamed A left).ends untyped
  obtain ⟨b, ρ', second, untyped'', R, drawn', _⟩ :=
    (delivers_algebraic (M := M) exists_key_of_isNamed B right).ends untyped'
  obtain ⟨d, τ, third, _, T, drawn'', lists⟩ := (Marking.delivers_sub drawn drawn').ends untyped''
  have whole : Ends (ofExpr (.binary A minus B)) σ d τ := by
    rw [ofExpr]
    simp only [isMinus, reduceCtorEq, if_false, operator?]
    exact ends_bind.mpr ⟨a, ρ, first, ends_bind.mpr ⟨b, ρ', second, third⟩⟩
  obtain ⟨ts, consists, terms⟩ := drawn.consists
  obtain ⟨us, consists', terms'⟩ := drawn'.consists
  obtain ⟨vs, consists'', terms''⟩ := drawn''.consists
  refine ⟨a, ρ, b, ρ', d, τ, ts, us, vs, first, second, whole, consists, consists', consists'', ?_⟩
  intro labels
  have listed : labels ts = S.lists ∧ labels us = R.lists ∧ labels vs = S.lists.diff R.lists := by
    refine ⟨terms.marks, terms'.marks, terms''.marks.trans (lists.trans ?_)⟩
    congr 1
    exact lawful_beq_subsingleton _ _
  rw [listed.1, listed.2.1, listed.2.2, toFinset_diff_eq_sdiff_iff]
  refine ⟨rfl, Iff.rfl, ?_⟩
  intro chain r taken
  have once := nodup_iff_count_le_one.mp (distinct chain) r
  have some := count_pos_iff.mpr taken
  omega

/-- The tree of `x + y*z - (y + y:z)`: two of the four terms stay. -/
theorem ofExpr_difference_product :
    let var := fun s : String => Expr.name ⟨.identifier, s, none⟩
    let plus : Token := ⟨.plus, "+", none⟩
    let A := binary (var "x") plus (binary (var "y") ⟨.star, "*", none⟩ (var "z"))
    let B := grouping (binary (var "y") plus (binary (var "y") ⟨.colon, ":", none⟩ (var "z")))
    ∃ a ρ b ρ' d τ ts us vs, Ends (ofExpr A) {} a ρ ∧ Ends (ofExpr B) ρ b ρ' ∧
      Ends (ofExpr (binary A ⟨.minus, "-", none⟩ B)) {} d τ ∧
      a.Consists ts ∧ b.Consists us ∧ d.Consists vs ∧
      let terms := List.map fun t : Term => t.components.map (·.atom.label)
      terms vs = [[("x", none)], [("z", none)]] ∧
      (terms vs).toFinset = (terms ts).toFinset \ (terms us).toFinset := by
  intro var plus A B
  have left : A.Algebraic Atom.IsNamed :=
    ⟨.inl rfl, isNamed "x", .inr (.inr (.inr rfl)), isNamed "y", isNamed "z"⟩
  have right : B.Algebraic Atom.IsNamed :=
    ⟨.inl rfl, isNamed "y", .inr (.inr (.inl rfl)), isNamed "y", isNamed "z"⟩
  have chain : A.Cumulative := ⟨.inl rfl, trivial⟩
  have minus : (⟨.minus, "-", none⟩ : Token).kind = .minus := rfl
  obtain ⟨a, ρ, b, ρ', d, τ, ts, us, vs, first, second, third, consists, consists', consists'',
    _, _, sets⟩ := ofExpr_difference minus left right Store.untyped_empty
  refine ⟨a, ρ, b, ρ', d, τ, ts, us, vs, first, second, third, consists, consists', consists'', ?_⟩
  refine ⟨?_, sets chain⟩
  let terms : Operand → List (List (String × Option String)) :=
    fun o => o.effects.map fun e => e.held.map (·.atom.label)
  obtain ⟨o, _, ends, held⟩ : ∃ o τ, Ends (ofExpr (binary A ⟨.minus, "-", none⟩ B)) {} o τ ∧
      terms o = [[("x", none)], [("z", none)]] := exists_ends (by cbv)
  obtain ⟨rfl, _⟩ := Ends.unique third ends
  rw [← held]
  simp [terms, consists''.effects, Effect.held]

/-- `(x + y)*x` has the term `x` twice, so `(x + y)*x - x` still has it. -/
theorem difference_of_repeated_term :
    let var := fun s : String => Expr.name ⟨.identifier, s, none⟩
    let A := binary (grouping (binary (var "x") ⟨.plus, "+", none⟩ (var "y"))) ⟨.star, "*", none⟩
      (var "x")
    let terms := fun o : Operand => o.effects.map fun e => e.held.map (·.atom.label)
    ∃ a ρ b ρ' d τ, Ends (ofExpr A) {} a ρ ∧ Ends (ofExpr (var "x")) {} b ρ' ∧
      Ends (ofExpr (binary A ⟨.minus, "-", none⟩ (var "x"))) {} d τ ∧
      [("x", none)] ∈ terms b ∧ [("x", none)] ∈ terms d ∧
      (terms d).toFinset ≠ (terms a).toFinset \ (terms b).toFinset := by
  intro var A terms
  obtain ⟨a, ρ, first, fromA⟩ : ∃ a ρ, Ends (ofExpr A) {} a ρ ∧
      terms a = [[("x", none)], [("y", none)], [("x", none)], [("y", none), ("x", none)]] :=
    exists_ends (by cbv)
  obtain ⟨b, ρ', second, fromB⟩ : ∃ b ρ, Ends (ofExpr (var "x")) {} b ρ ∧
      terms b = [[("x", none)]] := exists_ends (by cbv)
  obtain ⟨d, τ, third, left⟩ : ∃ d τ,
      Ends (ofExpr (binary A ⟨.minus, "-", none⟩ (var "x"))) {} d τ ∧
      terms d = [[("y", none)], [("x", none)], [("y", none), ("x", none)]] := exists_ends (by cbv)
  refine ⟨a, ρ, b, ρ', d, τ, first, second, third, ?_⟩
  rw [fromA, fromB, left]
  decide

end Expr

end ModelFormula
