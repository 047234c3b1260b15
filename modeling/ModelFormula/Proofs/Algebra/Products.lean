import ModelFormula.Proofs.Algebra.TermSets
import ModelFormula.Proofs.Calls.FormulaCalls

/-!
# Products

The product of two sums has the terms of both and all their interactions, unless the two are equal
models, whose product is the model itself.
-/
namespace ModelFormula

open List Operand ModelFormula.Expr Model

open Component (unknown)

/-! ### Products of operands -/

namespace Marking

variable {κ : Type} [DecidableEq κ] {M : Marking κ} {a b : Operand} {ts us : List Term}

lemma delivers_mulEffects (left : M.Lists ts D) (right : M.Lists us E) :
    Delivers ((ofTerms ts).mulEffects (us.map .term)) fun o =>
      M.Collects o (D ∪ E ∪ Finset.image₂ joined D E) := by
  apply (left.delivers_interactions right).bind
  intro vs made
  have base : ofEffects (ts.map .term ++ us.map .term) = ofTerms (ts ++ us) := by
    simp [ofEffects, ofTerms]
  have collected := (left.append right).delivers_editAll made
  rw [← base] at collected
  exact collected

lemma delivers_copiedInteractions (left : M.IsTerm t) (right : M.Lists us E) :
    Delivers ((us.map Effect.term).mapM (Term.copiedInteraction (.term t))) fun vs =>
      M.Lists vs (Finset.image₂ joined {M.marks t.components} E) := by
  rw [mapM_map]
  have each : ∀ u ∈ us, Delivers (Term.copiedInteraction (.term t) (.term u)) fun v =>
      M.IsTerm v ∧ M.marks v.components = joined (M.marks t.components) (M.marks u.components) :=
    fun u mem => delivers_copiedInteraction left (right.terms u mem)
  apply (runs_mapM each).imp
  intro vs made
  have lists := (ordered_of_forall₂ made).lists
  rw [Finset.image₂_singleton_left, ← right.marks]
  convert lists using 1
  ext s
  simp

/-- Operands that are found different have their terms and all interactions in the product. -/
lemma delivers_mul (left : M.Collects a D) (right : M.Collects b E)
    (different : a.same unknown b = .ok false) :
    Delivers (operate .mul a b) fun o =>
      M.Collects o (D ∪ E ∪ Finset.image₂ joined D E) := by
  obtain ⟨ts, shape, lists⟩ := left
  obtain ⟨us, shape', lists'⟩ := right
  cases shape with
  | term t =>
    have term := lists.terms t mem_cons_self
    have single : D = {M.marks t.components} := by
      rw [← lists.marks]
      simp
    apply (runs_withKinds_ok (Q := (· = false)) different rfl).bind
    rintro _ rfl
    cases shape' with
    | term u =>
      have term' := lists'.terms u mem_cons_self
      have single' : E = {M.marks u.components} := by
        rw [← lists'.marks]
        simp
      simp only [ofTerm, term'.not_number, Bool.false_eq_true, if_false]
      apply (delivers_copiedInteraction term term').bind
      rintro v ⟨made, marks⟩
      apply runs_pure
      have product := (lists.append lists').append (lists_singleton made)
      rw [marks, ← Finset.image₂_singleton, ← single, ← single'] at product
      exact product.collects
    | model us =>
      simp only [Bool.false_eq_true, if_false]
      apply (delivers_copiedInteractions term lists').bind
      intro vs made
      rw [← single] at made
      have base : ofTerms ([t] ++ us) = ofEffects (.term t :: (ofTerms us).common) := by
        simp [ofEffects, ofTerms]
      have collected := (lists.append lists').delivers_editAll made
      rw [base] at collected
      exact collected
  | model ts =>
    have product := delivers_mulEffects lists lists'
    apply (runs_withKinds_ok (Q := (· = false)) different rfl).bind
    rintro _ rfl
    cases shape' with
    | term u =>
      have term' := lists'.terms u mem_cons_self
      simp only [ofTerm, term'.not_number, Bool.false_eq_true, if_false]
      exact product
    | model us =>
      -- a single effect on the right is asked for its components, which a term has
      rcases us with _ | ⟨u, _ | ⟨v, us⟩⟩
      · exact product
      · apply (runs_lift_ok (Q := fun _ => True) rfl trivial).bind
        intro _ _
        exact product
      · exact product

lemma delivers_mul_self (left : M.Collects a D) (eq : a.same unknown b = .ok true) :
    Delivers (operate .mul a b) (· = a) := by
  obtain ⟨ts, shape, _⟩ := left
  cases shape with
  | term t | model ts =>
    apply (runs_withKinds_ok (Q := (· = true)) eq rfl).bind
    rintro _ rfl
    exact runs_pure rfl

/-- Equal terms have nothing to add to each other. -/
lemma Collects.of_equal_term (left : M.Collects (.ofTerm t) D) (right : M.Collects b E)
    (eq : (ofTerm t).same unknown b = .ok true) : D ∪ E ∪ Finset.image₂ joined D E = D := by
  obtain ⟨ts, shape, lists⟩ := left
  obtain ⟨us, shape', lists'⟩ := right
  cases shape
  have term := lists.terms t mem_cons_self
  cases shape' with
  | model => cases eq
  | term u =>
    have term' := lists'.terms u mem_cons_self
    have marks : M.marks t.components = M.marks u.components := by
      have compared := (term.same term').symm.trans eq
      simpa using compared
    rw [← lists.marks, ← lists'.marks]
    simp [← marks, joined_self term.nodup]

end Marking

/-! ### Classes of equal atoms -/

/-- Equality of atoms whose slots are not known to differ. -/
def Atom.same (a b : Atom) : Except Fault Bool := (⟨0, a⟩ : Component).same unknown ⟨0, b⟩

lemma Component.same_unknown (c d : Component) : c.same unknown d = c.atom.same d.atom := rfl

/-- What a tree of sums can put into a term: a variable with a name, or a call without a repeated
keyword. -/
def Atom.Plain : Atom → Prop
  | .variable (.text _) _ => True
  | .call e => e.Keyed
  | _ => False

namespace Atom

lemma Plain.written {a : Atom} (plain : a.Plain) : a.Written := by
  cases a with
  | «variable» => trivial
  | call => exact plain
  | stray => exact plain.elim

lemma Plain.named {a : Atom} (plain : a.Plain) (slot : Nat) :
    (Component.mk slot a).name.isNumber = false := by
  cases a with
  | «variable» name level =>
    cases name with
    | text => rfl
    | int | float => exact plain.elim
  | call => rfl
  | stray => exact plain.elim

lemma same_symm {a b : Atom} (plain : a.Plain) (eq : a.same b = .ok true) : b.same a = .ok true :=
  Component.same_symm plain.written eq

lemma same_trans {a b c : Atom} (plain : a.Plain) (first : a.same b = .ok true)
    (second : b.same c = .ok true) : a.same c = .ok true := by
  cases a with
  | «variable» n r =>
    cases b with
    | «variable» n' r' =>
      cases c with
      | «variable» n'' r'' =>
        simp only [Atom.same, Component.same, Except.ok.injEq, Bool.and_eq_true] at first second ⊢
        refine ⟨⟨by simp [unknown], Literal.beq_trans first.1.2 second.1.2⟩, ?_⟩
        exact Literal.option_beq_trans first.2 second.2
      | call | stray => simp [Atom.same, Component.same] at second
    | call | stray => simp [Atom.same, Component.same] at first
  | call e =>
    cases b with
    | call d =>
      cases c with
      | call c => exact CallExpr.same_trans first second
      | «variable» | stray => simp [Atom.same, Component.same] at second
    | «variable» | stray => simp [Atom.same, Component.same] at first
  | stray => exact plain.elim

end Atom

/-- Any two of the atoms can be compared, and each is equal to itself. -/
structure Comparable (P : Atom → Prop) : Prop where
  returns : ∀ a b, P a → P b → ∃ r, a.same b = .ok r
  self : ∀ a, P a → a.same a = .ok true

open Classical in
/-- Comparable atoms, marked by the atoms that they are equal to. -/
noncomputable def Comparable.marking {P : Atom → Prop} (comparable : Comparable P) :
    Marking (Set Atom) where
  Has a := P a ∧ a.Plain
  mark a := { b | a.same b = .ok true ∧ P b ∧ b.Plain }
  same := by
    rintro ⟨slot, a⟩ ⟨slot', b⟩ ⟨holds, plain⟩ ⟨holds', plain'⟩
    rw [Component.same_unknown]
    obtain ⟨r, compared⟩ := comparable.returns a b holds holds'
    rw [compared]
    congr 1
    rw [Bool.eq_iff_iff, decide_eq_true_iff]
    constructor
    · rintro rfl
      ext c
      constructor
      · exact fun ⟨equal, own⟩ => ⟨Atom.same_trans plain' (Atom.same_symm plain compared) equal, own⟩
      · exact fun ⟨equal, own⟩ => ⟨Atom.same_trans plain compared equal, own⟩
    · intro marks
      have mem : b ∈ { c | b.same c = .ok true ∧ P c ∧ c.Plain } :=
        ⟨comparable.self b holds', holds', plain'⟩
      have equal : a.same b = .ok true := (marks ▸ mem).1
      simpa [compared] using equal
  named c has := has.2.named c.slot

/-! ### Hashes -/

lemma exists_anyM {α : Type} {test : α → Except Fault Bool} {xs : List α}
    (each : ∀ x ∈ xs, ∃ b, test x = .ok b) : ∃ b, anyM test xs = .ok b := by
  choose! b returns using each
  exact ⟨_, anyM_of_ok returns⟩

lemma exists_mapM {α β : Type} {f : α → Except Fault β} {xs : List α}
    (each : ∀ x ∈ xs, ∃ y, f x = .ok y) : ∃ ys, xs.mapM f = .ok ys := by
  induction xs with
  | nil => exact ⟨[], rfl⟩
  | cons x xs ih =>
    obtain ⟨⟨y, first⟩, others⟩ := forall_mem_cons.mp each
    obtain ⟨ys, rest⟩ := ih others
    exact ⟨y :: ys, by simp [mapM_cons, first, rest, ok_bind, pure_ok]⟩

namespace Model

/-- The parts can be compared with each other, and each has a hash. -/
structure Hashable (S : Part → Prop) : Prop where
  keys : ∀ p, S p → ∃ k, p.key unknown = .ok k
  returns : ∀ p q, S p → S q → ∃ r, p.same unknown q = .ok r

variable {S : Part → Prop}

/-- Looking for an equal part with the same hash. -/
lemma Hashable.search (hashable : Hashable S) {kept : List (HashKey × Part)} (key : HashKey)
    (all : ∀ x ∈ kept, S x.2) (own : S p) :
    ∃ b, anyM (fun (key', p') => if key' == key then p'.same unknown p else .ok false) kept =
      .ok b := by
  apply exists_anyM
  rintro ⟨key', p'⟩ mem
  by_cases eq : (key' == key)
  · obtain ⟨r, compared⟩ := hashable.returns p' p (all _ mem) own
    exact ⟨r, by simp [eq, compared]⟩
  · exact ⟨false, by simp [eq]⟩

lemma Hashable.exists_partSet (hashable : Hashable S) {m : Model} (all : ∀ p ∈ m.parts, S p) :
    ∃ kept, m.partSet unknown = .ok kept ∧ ∀ x ∈ kept, S x.2 := by
  -- the fold may begin with any parts that it has kept
  have go : ∀ (ps : List Part) (kept : List (HashKey × Part)), (∀ p ∈ ps, S p) →
      (∀ x ∈ kept, S x.2) → ∃ kept', ps.foldlM (fun (kept : List (HashKey × Part)) p => do
        let key ← p.key unknown
        let known ← anyM (fun ((key', p') : HashKey × Part) =>
          if key' == key then p'.same unknown p else .ok false) kept
        if known then return kept
        return kept ++ [(key, p)]) kept = .ok kept' ∧ ∀ x ∈ kept', S x.2 := by
    intro ps
    induction ps with
    | nil => exact fun kept _ held => ⟨kept, rfl, held⟩
    | cons p ps ih =>
      intro kept all held
      obtain ⟨own, others⟩ := forall_mem_cons.mp all
      obtain ⟨key, hash⟩ := hashable.keys p own
      obtain ⟨known, search⟩ := hashable.search key held own
      rw [foldlM_cons]
      simp only [hash, search, ok_bind]
      cases known with
      | true => exact ih kept others held
      | false =>
        apply ih (kept ++ [(key, p)]) others
        exact forall_mem_append.mpr ⟨held, by simpa using own⟩
  exact go m.parts [] all (by simp)

lemma Hashable.exists_same (hashable : Hashable S) {m n : Model} (left : ∀ p ∈ m.parts, S p)
    (right : ∀ p ∈ n.parts, S p) (noResponse : m.response = none) (noResponse' : n.response = none) :
    ∃ r, m.same unknown n = .ok r := by
  obtain ⟨as, first, fromLeft⟩ := hashable.exists_partSet left
  obtain ⟨bs, second, fromRight⟩ := hashable.exists_partSet right
  have missing : ∃ b, anyM (fun (key, p) => do
      return !(← anyM (fun (key', p') => if key' == key then p'.same unknown p else .ok false) bs)) as
        = .ok b := by
    apply exists_anyM
    rintro ⟨key, p⟩ mem
    obtain ⟨b, search⟩ := hashable.search key fromRight (fromLeft _ mem)
    exact ⟨!b, by simp [search, ok_bind, pure_ok]⟩
  obtain ⟨b, missing⟩ := missing
  rw [same, first, second, noResponse, noResponse']
  simp only [ok_bind] at missing ⊢
  split
  · exact ⟨false, rfl⟩
  · rw [missing]
    exact ⟨!b && true, rfl⟩

end Model

/-! ### Products of trees -/

lemma Expr.sums_plain : ∀ e : Expr, e.Sums P → e.Sums fun a => P a ∧ a.Plain
  | .grouping e, sums => sums_plain e sums
  | .binary l _ r, ⟨kind, left, right⟩ => ⟨kind, sums_plain l left, sums_plain r right⟩
  | .name _, holds | .quotedName _, holds => ⟨holds, trivial⟩
  | .subset _ _, ⟨v, value, holds⟩ => ⟨v, value, holds, trivial⟩
  | .call _ _, ⟨e, read, holds⟩ => ⟨e, read, holds, CallExpr.keyed_of_ofExpr _ read⟩

lemma Operand.Consists.effects {o : Operand} {ts : List Term} (consists : o.Consists ts) :
    o.effects = ts.map .term := by
  cases consists <;> rfl

lemma Operand.Consists.unique {o : Operand} (first : o.Consists ts) (second : o.Consists us) :
    ts = us := by
  have effects : ts.map Effect.term = us.map .term := first.effects.symm.trans second.effects
  exact map_injective_iff.mpr (fun _ _ eq => Effect.term.inj eq) effects

/-- The operands consist of terms alone, and each term of one is equal to a term of the other. -/
def Operand.SameTerms (a b : Operand) : Prop :=
  ∃ ts us, a.Consists ts ∧ b.Consists us ∧ (∀ t ∈ ts, ∃ u ∈ us, t.same unknown u = .ok true) ∧
    ∀ u ∈ us, ∃ t ∈ ts, u.same unknown t = .ok true

/-- A term of any size on one side has one of that size on the other. -/
lemma Operand.SameTerms.size {a b : Operand} {n : Nat} (same : a.SameTerms b)
    (found : n ∈ b.effects.map (·.held.length)) : n ∈ a.effects.map (·.held.length) := by
  obtain ⟨ts, us, shape, shape', _, back⟩ := same
  rw [shape'.effects, map_map] at found
  rw [shape.effects, map_map]
  obtain ⟨u, own, rfl⟩ := mem_map.mp found
  obtain ⟨t, other, eq⟩ := back u own
  exact mem_map.mpr ⟨t, other, (Term.same_eq_true_iff.mp eq).length_eq.symm⟩

namespace Marking

variable {κ : Type} [DecidableEq κ] {M : Marking κ} {a b : Operand}

lemma Lists.exists_same (left : M.Lists ts D) (right : M.Lists us D) :
    ∀ t ∈ ts, ∃ u ∈ us, t.same unknown u = .ok true := by
  intro t mem
  have marks : M.marks t.components ∈ D := by
    rw [← left.marks, mem_toFinset]
    exact mem_map_of_mem mem
  rw [← right.marks, mem_toFinset] at marks
  obtain ⟨u, other, eq⟩ := mem_map.mp marks
  refine ⟨u, other, ?_⟩
  rw [(left.terms t mem).same (right.terms u other), decide_eq_true eq.symm]

lemma Collects.sameTerms (left : M.Collects a D) (right : M.Collects b D) : a.SameTerms b := by
  obtain ⟨ts, shape, lists⟩ := left
  obtain ⟨us, shape', lists'⟩ := right
  exact ⟨ts, us, shape, shape', lists.exists_same lists', lists'.exists_same lists⟩

/-- Components that can be hashed make terms that can be. -/
lemma hashable (keys : ∀ c : Component, M.Has c.atom → ∃ k, c.key unknown = .ok k) :
    Hashable fun p => ∃ t, p = .effect (.term t) ∧ M.IsTerm t where
  keys := by
    rintro _ ⟨t, rfl, term⟩
    obtain ⟨ks, hashes⟩ := exists_mapM fun c mem => keys c (term.has c mem)
    exact ⟨.tuple ks, by simp [Part.key, Effect.key, Term.key, hashes, Except.map]⟩
  returns := by
    rintro _ _ ⟨t, rfl, term⟩ ⟨u, rfl, term'⟩
    exact ⟨_, term.same term'⟩

/-- Operands can be compared if one is a term or all components can be hashed. -/
lemma Collects.exists_same {E : Finset (List κ)} (left : M.Collects a D) (right : M.Collects b E)
    (hashed : (∃ t, a = .ofTerm t) ∨ (∃ t, b = .ofTerm t) ∨
      ∀ c : Component, M.Has c.atom → ∃ k, c.key unknown = .ok k) :
    ∃ r, a.same unknown b = .ok r := by
  obtain ⟨ts, shape, lists⟩ := left
  obtain ⟨us, shape', lists'⟩ := right
  cases shape with
  | term t =>
    cases shape' with
    | term u => exact ⟨_, (lists.terms t mem_cons_self).same (lists'.terms u mem_cons_self)⟩
    | model => exact ⟨false, rfl⟩
  | model ts =>
    cases shape' with
    | term => exact ⟨false, rfl⟩
    | model us =>
      have keys : ∀ c : Component, M.Has c.atom → ∃ k, c.key unknown = .ok k := by
        rcases hashed with ⟨t, eq⟩ | ⟨t, eq⟩ | keys
        · cases eq
        · cases eq
        · exact keys
      have parts : ∀ {vs : List Term} {F : Finset (List κ)}, M.Lists vs F →
          ∀ p ∈ (ofTerms vs).parts, ∃ t, p = .effect (.term t) ∧ M.IsTerm t := by
        intro vs F lists p mem
        simp only [parts, ofTerms, map_map, map_nil, append_nil, mem_map] at mem
        obtain ⟨t, own, rfl⟩ := mem
        exact ⟨t, rfl, lists.terms t own⟩
      exact (hashable keys).exists_same (parts lists) (parts lists') rfl rfl

end Marking

/-- Comparable atoms can be hashed if their calls can be. -/
lemma Comparable.exists_key (comparable : Comparable P)
    (keys : ∀ e, P (.call e) → ∃ k, e.key = .ok k) :
    ∀ c : Component, comparable.marking.Has c.atom → ∃ k, c.key unknown = .ok k := by
  rintro ⟨slot, atom⟩ has
  cases atom with
  | «variable» => exact ⟨_, rfl⟩
  | call e => exact keys e has.1
  | stray => exact has.2.elim

open Classical in
/-- Two sums whose atoms can be compared are resolved, and so is the sum of both with their
interaction. If one of them is a term, or all calls can be hashed, their product is resolved too. The
product of two equal models is the first of them; any other product has the terms of the sum. -/
theorem ofExpr_product {P : Atom → Prop} {A B : Expr} {plus star colon : Token} {σ : Store}
    (isPlus : plus.kind = .plus) (isStar : star.kind = .star) (isColon : colon.kind = .colon)
    (left : A.Sums P) (right : B.Sums P) (comparable : Comparable P) (untyped : σ.Untyped) :
    ∃ a ρ b ρ' s ω, Ends (ofExpr A) σ a ρ ∧ Ends (ofExpr B) ρ b ρ' ∧
      Ends (ofExpr (.binary (.binary A plus B) plus (.binary A colon B))) σ s ω ∧
      ((∃ t, a = .ofTerm t) ∨ (∃ t, b = .ofTerm t) ∨ (∀ e, P (.call e) → ∃ k, e.key = .ok k) →
        ∃ p τ, Ends (ofExpr (.binary A star B)) σ p τ ∧
          if ∃ m n, a = .model m ∧ b = .model n ∧ m.same unknown n = .ok true then p = a
          else p.SameTerms s) := by
  have plainLeft := sums_plain A left
  have plainRight := sums_plain B right
  let M := comparable.marking
  obtain ⟨a, ρ, first, untyped', collected⟩ := (delivers_ofExpr M A plainLeft).ends untyped
  obtain ⟨b, ρ', second, untyped'', collected'⟩ := (delivers_ofExpr M B plainRight).ends untyped'
  have sums : (binary (.binary A plus B) plus (.binary A colon B)).Sums M.Has :=
    ⟨.inl isPlus, ⟨.inl isPlus, plainLeft, plainRight⟩, ⟨.inr isColon, plainLeft, plainRight⟩⟩
  obtain ⟨s, ω, expanded, _, whole⟩ := (delivers_ofExpr M _ sums).ends untyped
  rw [terms_sum _ isPlus, terms_sum _ isPlus, terms_interaction _ isColon] at whole
  refine ⟨a, ρ, b, ρ', s, ω, first, second, expanded, ?_⟩
  intro hashed
  obtain ⟨r, compared⟩ := collected.exists_same collected'
    (hashed.imp_right (Or.imp_right comparable.exists_key))
  have resolves : ∀ {p τ}, Ends (operate .mul a b) ρ' p τ →
      Ends (ofExpr (.binary A star B)) σ p τ := by
    intro p τ ends
    rw [ofExpr]
    simp only [isStar, reduceCtorEq, if_false, operator?]
    exact ends_bind.mpr ⟨a, ρ, first, ends_bind.mpr ⟨b, ρ', second, ends⟩⟩
  cases r with
  | false =>
    obtain ⟨p, τ, ends, _, product⟩ := (Marking.delivers_mul collected collected' compared).ends
      untyped''
    refine ⟨p, τ, resolves ends, ?_⟩
    rw [if_neg]
    · exact product.sameTerms whole
    · rintro ⟨m, n, rfl, rfl, equal⟩
      cases compared.symm.trans equal
  | true =>
    obtain ⟨p, τ, ends, _, rfl⟩ := (Marking.delivers_mul_self collected compared).ends untyped''
    refine ⟨p, τ, resolves ends, ?_⟩
    split
    · rfl
    next apart =>
      -- of two equal operands that are not both models the first is a term
      obtain ⟨ts, shape, lists⟩ := collected
      cases shape with
      | term t =>
        have known := Marking.Collects.of_equal_term ⟨_, .term t, lists⟩ collected' compared
        rw [known] at whole
        exact Marking.Collects.sameTerms ⟨_, .term t, lists⟩ whole
      | model ts =>
        obtain ⟨us, shape', _⟩ := collected'
        cases shape' with
        | term => cases compared
        | model us => exact absurd ⟨_, _, rfl, rfl, compared⟩ apart

/-- In `(x + log(z)) * log(z)` the call is one and the same on both sides. -/
theorem ofExpr_product_call :
    let x : Expr := .name ⟨.identifier, "x", none⟩
    let log : Expr := .call (.name ⟨.identifier, "log", none⟩) [.name ⟨.identifier, "z", none⟩]
    let sum := fun a b => binary a ⟨.plus, "+", none⟩ b
    let A := grouping (sum x log)
    ∃ p τ s ω, Ends (ofExpr (.binary A ⟨.star, "*", none⟩ log)) {} p τ ∧
      Ends (ofExpr (sum (sum A log) (.binary A ⟨.colon, ":", none⟩ log))) {} s ω ∧
      p.SameTerms s := by
  intro x log sum A
  let call : CallExpr := .call "log" [.name "z"] []
  let P : Atom → Prop := fun a => a = .variable (.text "x") none ∨ a = .call call
  have read : CallExpr.ofExpr log = .ok call := by cbv
  have self : call.same call = .ok true := by
    simp [call, CallExpr.same, CallExpr.sameList, CallExpr.sameNamed, ok_bind]
  have comparable : Comparable P := by
    constructor
    · rintro _ _ (rfl | rfl) (rfl | rfl)
      · exact ⟨_, rfl⟩
      · exact ⟨false, rfl⟩
      · exact ⟨false, rfl⟩
      · exact ⟨true, self⟩
    · rintro _ (rfl | rfl)
      · decide +kernel
      · exact self
  have right : log.Sums P := ⟨call, read, .inr rfl⟩
  have left : A.Sums P := ⟨.inl rfl, .inl rfl, right⟩
  obtain ⟨a, ρ, b, ρ', s, ω, first, second, expanded, product⟩ :=
    @ofExpr_product P A log ⟨.plus, "+", none⟩ ⟨.star, "*", none⟩ ⟨.colon, ":", none⟩ {} rfl rfl rfl
      left right comparable Store.untyped_empty
  have single : ∃ t, b = .ofTerm t := by
    rw [ofExpr] at second
    simp only [ofAtom, ends_bind, ends_pure] at second
    obtain ⟨_, _, _, _, _, _, t, _, _, rfl, _⟩ := second
    exact ⟨t, rfl⟩
  obtain ⟨p, τ, ends, same⟩ := product (.inr (.inl single))
  refine ⟨p, τ, s, ω, ends, expanded, ?_⟩
  rw [if_neg] at same
  · exact same
  · rintro ⟨m, n, _, rfl, _⟩
    obtain ⟨t, equal⟩ := single
    cases equal

/-- The product of a model with an equal one lacks the interactions of its terms. -/
theorem product_of_equal_models :
    let x : Expr := .name ⟨.identifier, "x", none⟩
    let y : Expr := .name ⟨.identifier, "y", none⟩
    let sum := fun a b => binary a ⟨.plus, "+", none⟩ b
    let A := grouping (sum x y)
    ∃ p τ s ω, Ends (ofExpr (.binary A ⟨.star, "*", none⟩ A)) {} p τ ∧
      Ends (ofExpr (sum (sum A A) (.binary A ⟨.colon, ":", none⟩ A))) {} s ω ∧
      ¬ p.SameTerms s := by
  intro x y sum A
  let sizes : Operand → List Nat := fun o => o.effects.map (·.held.length)
  obtain ⟨p, τ, ends, few⟩ : ∃ p τ, Ends (ofExpr (.binary A ⟨.star, "*", none⟩ A)) {} p τ ∧
      sizes p = [1, 1] := exists_ends (by cbv)
  obtain ⟨s, ω, expanded, more⟩ : ∃ s ω,
      Ends (ofExpr (sum (sum A A) (.binary A ⟨.colon, ":", none⟩ A))) {} s ω ∧
      sizes s = [1, 1, 2, 2] := exists_ends (by cbv)
  refine ⟨p, τ, s, ω, ends, expanded, ?_⟩
  intro same
  have pair : 2 ∈ sizes p := same.size (show 2 ∈ sizes s by rw [more]; decide)
  rw [few] at pair
  simp at pair

end ModelFormula
