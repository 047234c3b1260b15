import ModelFormula.Proofs.Algebra.Nesting

/-!
# Powers

The power of a sum has, for every size up to the degree, the interactions of all selections of so
many terms, in the lexicographic order of positions.
-/
namespace ModelFormula

open List Operand Model

open Component (unknown)

/-! ### Selections -/

/-- The lists of so many positions below the bound, each from left to right, in lexicographic order. -/
structure Selections (bound size : Nat) (ps : List (List Nat)) : Prop where
  ordered : ps.Pairwise (· < ·)
  mem_iff : ∀ p, p ∈ ps ↔ p.length = size ∧ p.Pairwise (· < ·) ∧ ∀ i ∈ p, i < bound

lemma sublist_range_iff {k : Nat} {p : List Nat} :
    p.Sublist (range k) ↔ p.Pairwise (· < ·) ∧ ∀ i ∈ p, i < k := by
  constructor
  · intro sublist
    refine ⟨pairwise_lt_range.sublist sublist, fun i mem => ?_⟩
    exact mem_range.mp (sublist.subset mem)
  · rintro ⟨increasing, bounded⟩
    have nodup : p.Nodup := increasing.imp fun less => Nat.ne_of_lt less
    have subset : p ⊆ range k := fun i mem => mem_range.mpr (bounded i mem)
    exact sublist_of_subperm_of_pairwise (nodup.subperm subset) increasing pairwise_lt_range

lemma selections_sublistsOfSize (k n : Nat) : Selections k n (sublistsOfSize n (range k)) := by
  refine ⟨sublistsOfSize_pairwise pairwise_lt_range n, fun p => ?_⟩
  rw [mem_sublistsOfSize, sublist_range_iff]
  tauto

/-- There is one list of selections. -/
lemma Selections.unique {bound size : Nat} {ps qs : List (List Nat)}
    (left : Selections bound size ps) (right : Selections bound size qs) : ps = qs := by
  apply left.ordered.eq_of_mem_iff right.ordered
  intro p
  rw [left.mem_iff, right.mem_iff]

/-- The sublists of a list are what it has at the selections of positions. -/
lemma sublistsOfSize_eq_map {α : Type} (d : α) (n : Nat) (xs : List α) :
    sublistsOfSize n xs = (sublistsOfSize n (range xs.length)).map (map fun i => xs.getD i d) := by
  have all : (range xs.length).map (fun i => xs.getD i d) = xs := by
    apply ext_getElem
    · simp
    · intro i _ inside
      simp [inside]
  rw [← sublistsOfSize_map, all]

/-! ### Powers of outlines -/

variable {κ : Type} [DecidableEq κ]

/-- The joined lists of all sublists of two items or more, up to the degree. -/
def merged (n : Nat) (ss : List (List κ)) : List (List κ) :=
  (range' 2 (min n ss.length - 1)).flatMap fun i =>
    (sublistsOfSize i ss).map fun p => p.flatten.eraseDups

/-- The lists and, for every size from two up to the degree, the joined lists at the selected positions;
of equal ones the first is kept. -/
def powerOf (selected : Nat → List (List Nat)) (n : Nat) (ss : List (List κ)) : List (List κ) :=
  (ss ++ (range' 2 (min n ss.length - 1)).flatMap fun i =>
    (selected i).map fun p => (p.flatMap fun j => ss.getD j []).eraseDups).eraseDups

lemma collected_eq_eraseDups {ss : List (List κ)} (nodup : ss.Nodup) (rs : List (List κ)) :
    collected ss rs = (ss ++ rs).eraseDups := by
  induction rs using reverseRecOn with
  | nil =>
    rw [append_nil, Coding.eraseDups_of_nodup nodup]
    rfl
  | append_singleton rs r ih =>
    have step : collected ss (rs ++ [r]) =
        if r ∈ collected ss rs then collected ss rs else collected ss rs ++ [r] := by
      rw [collected, foldl_append]
      rfl
    rw [step, ih, ← append_assoc, eraseDups_concat]
    simp only [mem_eraseDups]

lemma nodup_powerOf (selected : Nat → List (List Nat)) (n : Nat) (ss : List (List κ)) :
    (powerOf selected n ss).Nodup :=
  nodup_eraseDups _

lemma powerOf_sublists (n : Nat) (ss : List (List κ)) :
    powerOf (fun i => sublistsOfSize i (range ss.length)) n ss = (ss ++ merged n ss).eraseDups := by
  rw [powerOf, merged]
  simp only [sublistsOfSize_eq_map [] _ ss, map_map]
  rfl

namespace Marking

variable {M : Marking κ} {ts us : List Term} {ss : List (List κ)}

omit [DecidableEq κ] in
lemma mapM_components (us : List Term) :
    (us.map Effect.term).mapM Effect.components = .ok (us.map (·.components)) := by
  induction us with
  | nil => rfl
  | cons u us ih =>
    rw [map_cons, mapM_cons, ih]
    rfl

lemma delivers_mergedTerm (ordered : M.Ordered us ss) :
    Delivers (mergedTerm (us.map .term)) fun t =>
      M.IsTerm t ∧ M.marks t.components = ss.flatten.eraseDups := by
  have has : ∀ c ∈ (us.map (·.components)).flatten, M.Has c.atom := by
    intro c mem
    obtain ⟨_, listed, inside⟩ := mem_flatten.mp mem
    obtain ⟨t, own, rfl⟩ := mem_map.mp listed
    exact (ordered.terms t own).has c inside
  have marks : M.marks (us.map (·.components)).flatten = ss.flatten := by
    rw [← ordered.marks]
    simp [Marking.marks, map_flatten, Function.comp_def]
  apply (runs_lift_ok (mapM_components us) (Q := (· = us.map (·.components))) rfl).bind
  rintro _ rfl
  rw [← marks]
  exact delivers_newTerm has

/-- The interactions of all selections of the given sizes. -/
lemma Ordered.delivers_mergedTerms (ordered : M.Ordered ts ss) (sizes : List Nat) :
    Delivers ((sizes.flatMap (sublistsOfSize · (ofTerms ts).common)).mapM mergedTerm)
      fun us => M.Ordered us (sizes.flatMap fun i =>
        (sublistsOfSize i ss).map fun p => p.flatten.eraseDups) := by
  have effects : sizes.flatMap (sublistsOfSize · (ofTerms ts).common) =
      (sizes.flatMap (sublistsOfSize · ts)).map (map .term) := by
    simp [ofTerms, sublistsOfSize_map, map_flatMap]
  have each : ∀ vs ∈ sizes.flatMap (sublistsOfSize · ts),
      Delivers (mergedTerm (vs.map .term)) fun u => M.IsTerm u ∧
        M.marks u.components = (vs.map fun t => M.marks t.components).flatten.eraseDups := by
    intro vs mem
    obtain ⟨i, _, inside⟩ := mem_flatMap.mp mem
    have sublist : vs.Sublist ts := (mem_sublistsOfSize.mp inside).1
    exact delivers_mergedTerm ⟨fun t own => ordered.terms t (sublist.subset own), rfl⟩
  rw [effects, mapM_map]
  apply (runs_mapM each).imp
  intro us made
  have listed := ordered_of_forall₂ made
  rw [← ordered.marks]
  simpa [sublistsOfSize_map, map_flatMap, Function.comp_def] using listed

/-- A model of terms to the power of a whole number. -/
lemma Ordered.delivers_power {t : Term} {c : Component} {n : Nat} (ordered : M.Ordered ts ss)
    (single : t.components = [c]) (number : c.name = .int n) (pos : 1 ≤ n) :
    Delivers (operate .power (.model (.ofTerms ts)) (.ofTerm t)) fun o =>
      M.Draws o (.model (collected ss (merged n ss))) := by
  have long : ts.length = ss.length := by simp [← ordered.marks]
  have degree : Term.degree? t.components = some n := by
    have whole : (1 : Int) ≤ n := by exact_mod_cast pos
    simp [single, Term.degree?, number, whole]
  have sizes : (range (min n (ofTerms ts).common.length + 1)).drop 2 =
      range' 2 (min n ss.length - 1) := by
    simp [ofTerms, long, range_eq_range', drop_range']
  have edits : Delivers ((ofTerms ts).edits .power (.ofTerm t)) fun edits =>
      ∃ us, edits = addEdits us ∧ M.Ordered us (merged n ss) := by
    simp only [edits, ofTerm]
    rw [single]
    simp only [← single, degree, sizes]
    apply (ordered.delivers_mergedTerms _).bind
    intro us made
    exact runs_pure ⟨us, rfl, made⟩
  apply edits.bind
  rintro _ ⟨us, rfl, made⟩
  exact delivers_editAll ordered made

end Marking

/-- Different terms are collected in a model, in their order. -/
lemma Outline.add_eq_model {S R : Outline κ} (nodup : (S.lists ++ R.lists).Nodup) :
    S.add R = .model (S.lists ++ R.lists) := by
  have all : collected S.lists R.lists = S.lists ++ R.lists := by
    rw [collected_eq_eraseDups (nodup_append.mp nodup).1, Coding.eraseDups_of_nodup nodup]
  cases S with
  | model ss => exact congrArg Outline.model all
  | term s =>
    cases R with
    | model rs => exact congrArg Outline.model all
    | term r =>
      have apart : s ≠ r := by simpa [Outline.lists] using nodup
      simp [Outline.add, Outline.lists, apart]

/-! ### Trees -/

namespace Expr

/-- The tree is the sum of the trees, in this order and with any parentheses. -/
inductive SumOf : Expr → List Expr → Prop
  | summand (e : Expr) : SumOf e [e]
  | sum {plus : Token} {l r : Expr} {ls rs : List Expr} (isPlus : plus.kind = .plus)
      (left : SumOf l ls) (right : SumOf r rs) : SumOf (.binary l plus r) (ls ++ rs)
  | grouping {e : Expr} {es : List Expr} (inner : SumOf e es) : SumOf (.grouping e) es

/-- The sum of several different terms is their model. -/
lemma SumOf.outline {P : Atom → Prop} {mark : Atom → κ} {e : Expr} {es : List Expr}
    {ss : List (List κ)} (sum : e.SumOf es) (sums : ∀ t ∈ es, t.Sums P)
    (terms : es.map (Expr.outline mark) = ss.map .term) (nodup : ss.Nodup) :
    e.Sums P ∧ (e.outline mark).lists = ss ∧ (2 ≤ ss.length → e.outline mark = .model ss) := by
  induction sum generalizing ss with
  | summand e =>
    obtain ⟨s, rfl, single⟩ : ∃ s, ss = [s] ∧ e.outline mark = .term s := by
      cases ss with
      | nil => simp at terms
      | cons s ss => simpa [and_comm] using terms
    refine ⟨sums e mem_cons_self, ?_, by simp⟩
    rw [single]
    rfl
  | grouping _ ih =>
    rw [Sums, Expr.outline]
    exact ih sums terms nodup
  | @sum plus l r ls rs isPlus _ _ left right =>
    rw [map_append] at terms
    obtain ⟨ps, qs, rfl, first, second⟩ := map_eq_append_iff.mp terms.symm
    obtain ⟨own, other⟩ := forall_mem_append.mp sums
    obtain ⟨fresh, fresh', _⟩ := nodup_append.mp nodup
    obtain ⟨leftSums, leftLists, _⟩ := left own first.symm fresh
    obtain ⟨rightSums, rightLists, _⟩ := right other second.symm fresh'
    have model : (Expr.binary l plus r).outline mark = .model (ps ++ qs) := by
      rw [← leftLists, ← rightLists] at nodup ⊢
      rw [Expr.outline]
      simp only [isPlus, reduceCtorEq, if_false]
      exact Outline.add_eq_model nodup
    refine ⟨⟨.inl isPlus, leftSums, rightSums⟩, ?_, fun _ => model⟩
    rw [model]
    rfl

lemma delivers_wholeNumber {n : Nat} (large : 2 ≤ n) (lexeme : Option String) :
    Delivers (ofExpr (.literal (.int n) lexeme)) fun o =>
      ∃ t c, o = .ofTerm t ∧ t.components = [c] ∧ c.name = .int n := by
  have notZero : (Literal.int n == .int 0) = false := by
    simp [BEq.beq, Literal.same]
    omega
  have notOne : (Literal.int n == .int 1) = false := by
    simp [BEq.beq, Literal.same]
    omega
  simp only [ofExpr, notZero, notOne, Bool.false_eq_true, if_false]
  apply (runs_newComponent (.variable (.int n) none)).bind
  intro c atom
  have single : Term.distinct unknown [c] = .ok [c] := rfl
  have made : Delivers (Fit.newTerm [c]) (·.components = [c]) := by
    apply (runs_withKinds_ok single (Q := (· = [c])) rfl).bind
    rintro _ rfl
    apply runs_newSlot.bind
    intro slot _
    exact runs_pure rfl
  apply made.bind
  intro t components
  refine runs_pure ⟨t, c, rfl, components, ?_⟩
  rw [Component.name, atom]

end Expr

/-! ### Counting -/

lemma sublistsOfSize_one {α : Type} (xs : List α) : sublistsOfSize 1 xs = xs.map ([·]) := by
  induction xs with
  | nil => rfl
  | cons x xs ih => simp [sublistsOfSize, ih]

/-- The power of different variables has all their sublists up to the degree. -/
lemma merged_singletons {vs : List κ} (nodup : vs.Nodup) {n : Nat} (pos : 1 ≤ n)
    (nonempty : 1 ≤ vs.length) :
    vs.map ([·]) ++ merged n (vs.map ([·])) =
      (range' 1 (min n vs.length)).flatMap (sublistsOfSize · vs) := by
  have plain : ∀ i, (sublistsOfSize i (vs.map ([·]))).map (fun p => p.flatten.eraseDups) =
      sublistsOfSize i vs := by
    intro i
    have each : ∀ p ∈ sublistsOfSize i vs,
        ((fun p : List (List κ) => p.flatten.eraseDups) ∘ map ([·])) p = id p := by
      intro p mem
      have fresh : p.Nodup := nodup.sublist (mem_sublistsOfSize.mp mem).1
      have flat : (p.map ([·])).flatten = p := by simp [← flatMap_def]
      rw [Function.comp_apply, flat, Coding.eraseDups_of_nodup fresh, id]
    rw [sublistsOfSize_map, map_map, map_congr_left each, map_id]
  have sizes : range' 1 (min n vs.length) = 1 :: range' 2 (min n vs.length - 1) := by
    obtain ⟨m, least⟩ : ∃ m, min n vs.length = m + 1 := ⟨min n vs.length - 1, by omega⟩
    simp [least, range'_succ]
  rw [sizes, flatMap_cons, sublistsOfSize_one, merged, length_map]
  simp only [plain]

/-- Different variables have as many selections as the binomial coefficients say. -/
lemma length_powerOf {ss : List (List κ)} (nodup : ss.Nodup) (single : ∀ s ∈ ss, s.length = 1)
    {n : Nat} (pos : 1 ≤ n) (nonempty : 1 ≤ ss.length) :
    (powerOf (fun i => sublistsOfSize i (range ss.length)) n ss).length =
      ∑ i ∈ Finset.Icc 1 (min n ss.length), ss.length.choose i := by
  obtain ⟨vs, rfl⟩ : ∃ vs : List κ, ss = vs.map ([·]) := by
    clear nodup nonempty
    induction ss with
    | nil => exact ⟨[], rfl⟩
    | cons s ss ih =>
      obtain ⟨first, others⟩ := forall_mem_cons.mp single
      obtain ⟨k, rfl⟩ := length_eq_one_iff.mp first
      obtain ⟨vs, rfl⟩ := ih others
      exact ⟨k :: vs, rfl⟩
  rw [powerOf_sublists, length_map]
  rw [length_map] at nonempty
  have fresh : vs.Nodup := nodup.of_map _
  have sublist : ((range' 1 (min n vs.length)).flatMap (sublistsOfSize · vs)).Sublist
      (sortedSublists vs) := by
    have sizes : (range' 1 (min n vs.length)).Sublist (range (vs.length + 1)) := by
      rw [range_eq_range', range'_succ]
      exact (range'_sublist_right.mpr (Nat.min_le_right ..)).cons 0
    exact sizes.flatMap _
  rw [merged_singletons fresh pos nonempty,
    Coding.eraseDups_of_nodup ((nodup_sortedSublists fresh).sublist sublist), length_flatMap]
  have lengths : (fun i => (sublistsOfSize i vs).length) = vs.length.choose := by
    funext i
    rw [(sublistsOfSize_perm i vs).length_eq, length_sublistsLen]
  rw [lengths, Finset.sum, Nat.Icc_eq_range']
  rfl

/-- The sum of several different terms to the power of a whole number from two on. The result is the
model of the terms of the sum and, for every size up to the degree, the joined selections of so many
of them, in lexicographic order; a term that is already there is left out. So no term is there twice,
and if the terms are different variables the binomial coefficients count them. -/
theorem ofExpr_power {A : Expr} {es : List Expr} {ss : List (List (String × Option String))}
    {power : Token} {n : Nat} {σ : Store} (lexeme : Option String) (isPower : power.kind = .starStar)
    (sum : A.SumOf es) (sums : ∀ e ∈ es, e.Sums Atom.IsNamed)
    (terms : es.map (Expr.outline Atom.label) = ss.map .term) (several : 2 ≤ ss.length)
    (distinct : ss.Nodup) (large : 2 ≤ n) (untyped : σ.Untyped) :
    ∃ ts τ, Ends (ofExpr (.binary A power (.literal (.int n) lexeme))) σ (.model (.ofTerms ts)) τ ∧
      (∀ t ∈ ts, ∀ c ∈ t.components, c.atom.IsNamed) ∧
      (∃ selected, (∀ i, Selections ss.length i (selected i)) ∧
        ts.map (fun t => t.components.map (·.atom.label)) = powerOf selected n ss) ∧
      (ts.map fun t => t.components.map (·.atom.label)).Nodup ∧
      ((∀ s ∈ ss, s.length = 1) →
        ts.length = ∑ i ∈ Finset.Icc 1 (min n ss.length), ss.length.choose i) := by
  obtain ⟨whole, _, model⟩ := sum.outline sums terms distinct
  let selected := fun i => sublistsOfSize i (List.range ss.length)
  have resolved : Delivers (ofExpr (.binary A power (.literal (.int n) lexeme))) fun o =>
      Marking.names.Draws o (.model (powerOf selected n ss)) := by
    rw [powerOf_sublists, ← collected_eq_eraseDups distinct]
    have left := Expr.delivers_outline Marking.names A whole
    have shape : Expr.outline Marking.names.mark A = .model ss := model several
    rw [shape] at left
    apply Expr.runs_operation isPower rfl left (Expr.delivers_wholeNumber large lexeme)
    rintro _ _ (_ | ordered) ⟨t, c, rfl, single, number⟩
    exact ordered.delivers_power single number (by omega)
  obtain ⟨o, τ, ends, _, drawn⟩ := resolved.ends untyped
  cases drawn with
  | @model ts _ ordered =>
    have labels : ts.map (fun t => t.components.map (·.atom.label)) = powerOf selected n ss :=
      ordered.marks
    refine ⟨ts, τ, ends, fun t member => (ordered.terms t member).has, ?_, ?_, ?_⟩
    · exact ⟨selected, selections_sublistsOfSize ss.length, labels⟩
    · rw [labels]
      exact nodup_powerOf selected n ss
    · intro single
      rw [← length_powerOf distinct single (by omega) (by omega), ← labels, length_map]

/-- The tree of `(x + (y + x:y)) ** 5`. Of the four selections only that of `y` and `x:y` brings a new
term, in which `y` comes first. -/
theorem ofExpr_power_overlapping :
    let plus : Token := ⟨.plus, "+", none⟩
    let var := fun s : String => Expr.name ⟨.identifier, s, none⟩
    let pair := Expr.binary (var "x") ⟨.colon, ":", none⟩ (var "y")
    let sum := Expr.grouping (.binary (var "x") plus (.grouping (.binary (var "y") plus pair)))
    ∃ ts τ, Ends (ofExpr (.binary sum ⟨.starStar, "**", none⟩ (.literal (.int 5) none))) {}
        (.model (.ofTerms ts)) τ ∧
      ts.map (fun t => t.components.map (·.atom.label)) =
        [[("x", none)], [("y", none)], [("x", none), ("y", none)], [("y", none), ("x", none)]] := by
  intro plus var pair sum
  have isSum : sum.SumOf [var "x", var "y", pair] :=
    .grouping (.sum rfl (.summand _) (.grouping (.sum rfl (.summand _) (.summand _))))
  have sums : ∀ e ∈ [var "x", var "y", pair], e.Sums Atom.IsNamed := by
    simpa [Expr.Sums, var, pair] using ⟨isNamed "x", isNamed "y", isNamed "x", isNamed "y"⟩
  have terms : [var "x", var "y", pair].map (Expr.outline Atom.label) =
      [[("x", none)], [("y", none)], [("x", none), ("y", none)]].map .term := rfl
  have isPower : (⟨.starStar, "**", none⟩ : Token).kind = .starStar := rfl
  obtain ⟨ts, τ, ends, _, ⟨selected, selections, labels⟩, _, _⟩ :=
    ofExpr_power none isPower isSum sums terms (by decide) (by decide) (by decide : 2 ≤ 5)
      Store.untyped_empty
  refine ⟨ts, τ, ends, ?_⟩
  obtain rfl : selected = fun i => sublistsOfSize i (List.range 3) :=
    funext fun i => (selections i).unique (selections_sublistsOfSize 3 i)
  rw [labels]
  decide +kernel

end ModelFormula
