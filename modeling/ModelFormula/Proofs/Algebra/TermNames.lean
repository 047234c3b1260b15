import ModelFormula.Proofs.Algebra.DistinctParts
import ModelFormula.Proofs.Designs.ModelColumns
import ModelFormula.Proofs.Parsing.CallText

/-!
# The names of common effects

A name shows the components of its term joined by colons, and a call without its parentheses. Where
no call needed any, two effects with one name are equal, and so the matrix has one block for each
common effect.
-/
namespace ModelFormula

open List Piece CallExpr Component

open Component (unknown)

/-! ### Components -/

/-- The names of the intercepts. -/
def reservedNames : List String := ["Intercept", "NegatedIntercept"]

lemma isName_of_letters (nonempty : s.toList ≠ []) (letters : ∀ c ∈ s.toList, c.isAlpha) :
    IsName s := by
  have head {c : Char} (first : c ∈ s.toList.head?) : c.isAlpha :=
    letters c (mem_of_mem_head? first)
  refine ⟨solid_of_unbroken nonempty ?_ ?_, ?_⟩
  · intro c first initial
    have letter := head first
    simp only [otherInitials, mem_cons, not_mem_nil, or_false] at initial
    rcases initial with rfl | rfl | rfl | rfl | rfl <;> cases letter
  · intro c mem breaks
    have letter := letters c mem
    simp only [delimiters, mem_cons, not_mem_nil, or_false] at breaks
    rcases breaks with rfl | rfl | rfl | rfl | rfl | rfl <;> cases letter
  · intro c first
    have letter := head first
    rw [Bool.eq_false_iff]
    intro digit
    simp only [Char.isAlpha, Char.isUpper, Char.isLower, Char.isDigit, Bool.or_eq_true,
      Bool.and_eq_true, decide_eq_true_eq, ge_iff_le, Char.reduceVal, UInt32.le_iff_toNat_le,
      UInt32.reduceToNat] at letter digit
    omega

lemma isName_reserved (reserved : n ∈ reservedNames) : IsName n := by
  simp only [reservedNames, mem_cons, not_mem_nil, or_false] at reserved
  rcases reserved with rfl | rfl <;> exact isName_of_letters (by simp) (by simp)

namespace Atom

/-- A component that shows in its name: a variable by a word that is no number and not the name of
an intercept, a number by its digits, and a call by a text without parentheses around operations. A
name does not show the reference level, so it has to be the one that `level` gives to the variable. -/
def Legible (level : String → Option String) : Atom → Prop
  | .variable (.text n) reference => IsName n ∧ n ∉ reservedNames ∧ reference = (level n).map .text
  | .variable number reference => LegibleValue number none ∧ reference = none
  | .call (.call callee args named) => (CallExpr.call callee args named).Legible
  | .call _ | .stray _ => False

def pieces : Atom → List Piece
  | .variable n _ => [.word n.plain]
  | .call e => e.pieces
  | .stray s => [.word s.name]

variable {level : String → Option String}

lemma colon_not_mem_pieces (a : Atom) : .colon ∉ a.pieces := by
  cases a with
  | «variable» | stray => simp [pieces]
  | call e => exact e.colon_not_mem_pieces

lemma Legible.nonempty {a : Atom} (legible : a.Legible level) : a.pieces ≠ [] := by
  match a with
  | .variable _ _ => simp [pieces]
  | .call (.call _ _ _) => simp [pieces, CallExpr.pieces]

lemma Legible.separated {a : Atom} (legible : a.Legible level) {rest : List Piece}
    (stops : Piece.Stops rest) (separated : Piece.Separated rest) :
    Piece.Separated (a.pieces ++ rest) := by
  match a with
  | .variable (.text n) _ => exact ⟨legible.1.1, fun _ => stops, separated⟩
  | .variable (.int n) _ | .variable (.float x) _ =>
    have number := numberText_plain legible.1
    exact ⟨solid_number number, fun _ => stops, separated⟩
  | .call (.call _ _ _) => exact CallExpr.separated_pieces legible stops separated

/-- A word is no number and no call. -/
lemma Legible.pieces_ne_word {a : Atom} (legible : a.Legible level) (isName : IsName n)
    (shown : a.pieces = [.word n]) : ∃ reference, a = .variable (.text n) reference := by
  have number {v : Literal} (value : LegibleValue v none) : v.plain ≠ n := by
    rintro rfl
    obtain ⟨c, rest, shape, digit⟩ := (numberText_plain value).first
    have other := isName.2 c (by simp [shape])
    rw [digit] at other
    cases other
  match a with
  | .variable (.text m) reference =>
    simp only [pieces, Literal.plain, cons.injEq, word.injEq, and_true] at shown
    exact ⟨reference, by rw [shown]⟩
  | .variable (.int k) _ | .variable (.float x) _ =>
    simp only [pieces, cons.injEq, word.injEq, and_true] at shown
    exact absurd shown (number legible.1)
  | .call (.call _ _ _) => simp [pieces, CallExpr.pieces] at shown

end Atom

variable {level : String → Option String}

lemma Component.same_variable {slot slot' : Nat} (names : n == n') (references : r == r') :
    same unknown ⟨slot, .variable n r⟩ ⟨slot', .variable n' r'⟩ = .ok true := by
  simp [same, unknown, names, references]

/-- A number is shown by a number only. -/
lemma Component.same_of_number {slot slot' : Nat} {v : Literal} (isNumber : v.isNumber)
    (value : LegibleValue v none ∧ r = none) (left : (Atom.variable v r).Legible level)
    (right : b.Legible level) (eq : (Atom.variable v r).pieces = b.pieces) :
    same unknown ⟨slot, .variable v r⟩ ⟨slot', b⟩ = .ok true := by
  match b with
  | .variable (.text n) _ =>
    obtain ⟨_, shape⟩ := left.pieces_ne_word right.1 eq
    cases shape
    cases isNumber
  | .variable (.int k) _ | .variable (.float y) _ =>
    simp only [Atom.pieces, cons.injEq, word.injEq, and_true] at eq
    apply same_variable (plain_injective value.1 right.1 eq)
    rw [value.2, right.2]
    rfl
  | .call (.call _ _ _) => simp [Atom.pieces, pieces] at eq

lemma Component.same_of_pieces {c d : Component} (written : d.atom.Written)
    (left : c.atom.Legible level) (right : d.atom.Legible level)
    (eq : c.atom.pieces = d.atom.pieces) : c.same unknown d = .ok true := by
  obtain ⟨slot, a⟩ := c
  obtain ⟨slot', b⟩ := d
  cases a with
  | «variable» v r =>
    cases v with
    | text n =>
      have text (s : String) : Literal.text s == Literal.text s := beq_self_eq_true s
      obtain ⟨r', rfl⟩ := right.pieces_ne_word left.1 eq.symm
      apply same_variable (text n)
      rw [left.2.2, right.2.2]
      cases level n with
      | none => rfl
      | some l => exact text l
    | int k | float x => exact same_of_number rfl left left right eq
  | call e =>
    cases b with
    | call d =>
      cases e with
      | call =>
        cases d with
        | call => exact CallExpr.same_of_pieces_eq written left right eq
        | unary | binary | name | value => exact right.elim
      | unary | binary | name | value => exact left.elim
    | «variable» =>
      cases e with
      | call => simp [Atom.pieces, pieces] at eq
      | unary | binary | name | value => exact left.elim
    | stray => exact right.elim
  | stray => exact left.elim

/-! ### Effects -/

lemma intercalate_colon_inj (left : ∀ xs ∈ xss, xs ≠ [] ∧ .colon ∉ xs)
    (right : ∀ ys ∈ yss, ys ≠ [] ∧ .colon ∉ ys)
    (eq : [colon].intercalate xss = [colon].intercalate yss) : xss = yss := by
  have nothing {zss : List (List Piece)} (some : ∀ zs ∈ zss, zs ≠ [] ∧ .colon ∉ zs)
      (empty : [colon].intercalate zss = []) : zss = [] := by
    match zss with
    | [] => rfl
    | [zs] =>
      rw [intercalate_singleton] at empty
      exact absurd empty (some zs (by simp)).1
    | zs :: ws :: zss => simp [intercalate_cons_cons] at empty
  by_cases first : xss = []
  · subst first
    exact (nothing right (by rw [← eq, intercalate_nil])).symm
  · by_cases second : yss = []
    · subst second
      exact nothing left (by rw [eq, intercalate_nil])
    · rw [← splitOn_intercalate colon (fun xs mem => (left xs mem).2) first,
        eq, splitOn_intercalate colon (fun ys mem => (right ys mem).2) second]

namespace Effect

/-- What the name of an effect is joined from; the intercepts are shown by a word. -/
def nameParts : Effect → List (List Piece)
  | .term t => t.components.map (·.atom.pieces)
  | e => [[.word e.name]]

lemma name_reserved {e : Effect} (noTerm : e.term? = none) : e.name ∈ reservedNames := by
  cases e with
  | intercept | negated => simp [name, reservedNames]
  | term => cases noTerm

lemma render_nameParts (e : Effect) :
    render ([.colon].intercalate e.nameParts) = e.name.toList := by
  cases e with
  | intercept | negated => simp [nameParts, chars]
  | term t =>
    have shown : t.components.map (fun c => render c.atom.pieces) =
        t.components.map fun c => c.name.plain.toList := by
      apply map_congr_left
      rintro ⟨slot, a⟩ -
      cases a with
      | «variable» => simp [Atom.pieces, chars, Component.name]
      | call => simp [Atom.pieces, render_pieces, Component.name, Literal.plain]
      | stray => simp [Atom.pieces, chars, Component.name, Literal.plain]
    simp [nameParts, name, Term.name, render_intercalate, chars, Function.comp_def, shown]

lemma separated_nameParts {e : Effect} (legible : e.All (Atom.Legible level)) :
    Piece.Separated ([.colon].intercalate e.nameParts) := by
  have each : ∀ xs ∈ e.nameParts, ∀ rest, Piece.Stops rest → Piece.Separated rest →
      Piece.Separated (xs ++ rest) := by
    intro xs among rest stops separated
    cases e with
    | intercept | negated =>
      rw [mem_singleton.mp among]
      exact ⟨(isName_reserved (name_reserved rfl)).1, fun _ => stops, separated⟩
    | term t =>
      obtain ⟨c, mem, rfl⟩ := mem_map.mp among
      exact (legible c mem).separated stops separated
  have separated := @CallExpr.separated_intercalate .colon (.inr rfl) _ [] each trivial
    (by simp [Piece.Stops])
  rwa [append_nil] at separated

lemma nameParts_eq_of_name_eq {a b : Effect} (left : a.All (Atom.Legible level))
    (right : b.All (Atom.Legible level)) (eq : a.name = b.name) : a.nameParts = b.nameParts := by
  have proper {e : Effect} (legible : e.All (Atom.Legible level)) :
      ∀ xs ∈ e.nameParts, xs ≠ [] ∧ .colon ∉ xs := by
    intro xs among
    cases e with
    | intercept | negated =>
      rw [mem_singleton.mp among]
      simp
    | term t =>
      obtain ⟨c, mem, rfl⟩ := mem_map.mp among
      exact ⟨(legible c mem).nonempty, c.atom.colon_not_mem_pieces⟩
  apply intercalate_colon_inj (proper left) (proper right)
  apply render_injective (separated_nameParts left) (separated_nameParts right)
  rw [render_nameParts, render_nameParts, eq]

/-- No term is named like an intercept. -/
lemma nameParts_ne_reserved {t : Term} (legible : (Effect.term t).All (Atom.Legible level))
    (reserved : n ∈ reservedNames) : (Effect.term t).nameParts ≠ [[.word n]] := by
  intro shown
  obtain ⟨c, single, pieces⟩ := map_eq_singleton_iff.mp shown
  have own := legible c (by simp [held, single])
  obtain ⟨_, shape⟩ := own.pieces_ne_word (isName_reserved reserved) pieces
  rw [shape] at own
  exact own.2.1 reserved

/-- Effects with one name are equal. -/
lemma same_of_name_eq {a b : Effect} (written : b.All Atom.Written)
    (left : a.All (Atom.Legible level)) (right : b.All (Atom.Legible level))
    (eq : a.name = b.name) : a.same unknown b = .ok true := by
  have parts := nameParts_eq_of_name_eq left right eq
  cases a with
  | intercept =>
    cases b with
    | intercept => rfl
    | negated => simp [name] at eq
    | term u => exact absurd parts.symm (nameParts_ne_reserved right (name_reserved rfl))
  | negated =>
    cases b with
    | negated => rfl
    | intercept => simp [name] at eq
    | term u => exact absurd parts.symm (nameParts_ne_reserved right (name_reserved rfl))
  | term t =>
    cases b with
    | intercept | negated => exact absurd parts (nameParts_ne_reserved left (name_reserved rfl))
    | term u =>
      apply Term.same_eq_true_iff.mpr
      apply forall₂_of_map_eq parts
      intro c mem d inside
      exact same_of_pieces (written d inside) (left c mem) (right d inside)

end Effect

/-! ### The dictionary of a design matrix -/

lemma Model.byName_eq {m : Model} (nodup : (m.common.map Effect.name).Nodup) :
    m.byName = m.common.map fun e => (e.name, e) := by
  have apart : (m.common.map fun e => (e.name, e)).Pairwise fun p q => (p.1 == q.1) = false := by
    rw [pairwise_map]
    apply (pairwise_map.mp nodup).imp
    intro a b different
    simpa using different
  have bound := foldl_assign_of_fresh (m.common.map fun e => (e.name, e)) [] (by simpa using apart)
  rwa [foldl_map, nil_append] at bound

namespace DesignMatrix

lemma slicesFrom_names (start : Nat) (widths : List (String × Nat)) :
    (slicesFrom start widths).map Slice.name = widths.map Prod.fst := by
  induction widths generalizing start with
  | nil => rfl
  | cons w widths ih => rw [slicesFrom, map_cons, ih, map_cons]

lemma evaluate_names {d d' : DesignMatrix} (evaluated : d.evaluate σ = .ok d') :
    d'.slices.map Slice.name = d.parts.map Prod.fst := by
  obtain ⟨blocks, mapped, evaluated⟩ := bind_eq_ok.mp evaluated
  obtain ⟨matrix, _, evaluated⟩ := bind_eq_ok.mp evaluated
  cases evaluated
  have named : List.Forall₂ (fun p b => p.1 = b.1) d.parts blocks := by
    apply ((mapM_ok_iff _ _ _).mp mapped).imp
    intro p b first
    obtain ⟨data, _, first⟩ := bind_eq_ok.mp first
    cases data with
    | none => cases first
    | some c =>
      cases first
      rfl
  have names : d.parts.map Prod.fst = blocks.map Prod.fst := by
    rwa [← forall₂_eq_eq_eq, forall₂_map_left_iff, forall₂_map_right_iff]
  rw [slicesFrom_names, map_map, names]
  rfl

end DesignMatrix

namespace Operand

/-- The common effects of a formula that was read to its end are pairwise unequal: it has a response,
or no tilde and so a `1` in front. -/
lemma effects_distinct (ends : Ends (ofFormula formula) {} o τ)
    (whole : o.response? ≠ none ∨ ∃ us, Token.tokens formula.toList = .ok us ∧
      ∀ t ∈ us, t.isTilde = false) :
    o.effects.Pairwise fun a b => a.same unknown b = .ok false := by
  obtain ⟨ts, e, scanned, parsed, ends⟩ := ends_ofFormula ends
  have gives := Expr.gives_written e
  rcases whole with responds | ⟨us, cut, none⟩
  · have led := Expr.tildesLed_of_formula scanned parsed
    have tidy := ((Expr.orderly_of_tildesLed e led gives).returns Store.untyped_empty ends).2 responds
    match o with
    | .model m => exact tidy.common
    | .part (.effect (.intercept _)) => exact pairwise_singleton _ _
    | .part (.effect .negated) | .part (.effect (.term _)) | .part (.group _) | .response _
    | .foreign _ => exact tidy.elim
  · have begun := Expr.begun_of_formula cut none scanned parsed
    exact ((Expr.distinct_of_begun begun gives).returns Store.untyped_empty ends).2

/-- If the common effects of a formula show in their names, two of them with one name are equal. The
dictionary of the design matrix then keeps an effect of every name, equal to all others of that name;
and if the formula was read to its end, it keeps all common effects in order, and a matrix that is
evaluated from it has a slice for each of them and the columns of all. -/
theorem ofFormula_names_distinct {formula : String} {m : Model} {τ : Store}
    {level : String → Option String} (ends : Ends (ofFormula formula) {} (.model m) τ)
    (legible : ∀ e ∈ m.common, e.All (Atom.Legible level)) :
    (∀ a ∈ m.common, ∀ b ∈ m.common, a.name = b.name → a.same τ.kinds b = .ok true) ∧
    ∃ d, DesignMatrix.ofParts (m.common.map .effect) = .ok d ∧ (∀ e ∈ m.common, ∃ b ∈ m.common,
        (e.name, Part.effect b) ∈ d.parts ∧ e.same τ.kinds b = .ok true) ∧
      ((m.response ≠ none ∨ ∃ us, Token.tokens formula.toList = .ok us ∧
          ∀ t ∈ us, t.isTilde = false) →
        d.parts = m.common.map (fun e => (e.name, .effect e)) ∧
        ∀ σ d', d.evaluate σ = .ok d' → d'.slices.map Slice.name = m.common.map Effect.name ∧
          ∃ blocks b, List.Forall₂ (fun e c => e.data? σ = .ok (some c)) m.common blocks ∧
            d'.matrix = some b ∧
            DesignMatrix.columnCount b = (blocks.map DesignMatrix.columnCount).sum) := by
  obtain ⟨ts, e, scanned, parsed, tree⟩ := ends_ofFormula ends
  obtain ⟨untyped, written⟩ :=
    (Expr.returns_ofExpr e (Expr.gives_written e)).returns Store.untyped_empty tree
  rw [untyped]
  have tells : ∀ a ∈ m.common, ∀ b ∈ m.common, a.name = b.name → a.same unknown b = .ok true :=
    fun a left b right => Effect.same_of_name_eq (written.common b right) (legible a left)
      (legible b right)
  refine ⟨tells, _, Model.ofParts_common m, ?_, ?_⟩
  · intro a member
    obtain ⟨⟨n, b⟩, bound, rfl⟩ := mem_map.mp (Model.name_mem_byName member)
    obtain ⟨inside, name⟩ := Model.mem_common_of_byName bound
    refine ⟨b, inside, ?_, tells a member b inside name.symm⟩
    exact mem_map.mpr ⟨_, bound, rfl⟩
  · intro whole
    have distinct : (m.common.map Effect.name).Nodup := by
      apply pairwise_map.mpr
      apply (effects_distinct ends whole).imp_of_mem
      intro a b left right apart equal
      rw [tells a left b right equal] at apart
      cases apart
    have parts : m.byName.map (fun p => (p.1, Part.effect p.2)) =
        m.common.map fun e => (e.name, .effect e) := by
      rw [Model.byName_eq distinct, map_map]
      rfl
    rw [parts]
    refine ⟨rfl, fun σ d' evaluated => ⟨?_, ?_⟩⟩
    · rw [DesignMatrix.evaluate_names evaluated, map_map]
      rfl
    · obtain ⟨blocks, b, found, matrix, sum⟩ := Model.evaluate_columns evaluated
      exact ⟨blocks, b, forall₂_map_left_iff.mp found, matrix, sum⟩

set_option maxRecDepth 100000 in
/-- Two calls whose operations need no parentheses, one of them in an interaction. -/
theorem ofFormula_names_distinct_calls : ∃ m τ,
    Ends (ofFormula "y ~ I(a+b*c) + a:I(b)") {} (.model m) τ ∧ m.common.length = 3 ∧
      (∀ e ∈ m.common, e.All (Atom.Legible fun _ => none)) ∧
      (∀ a ∈ m.common, ∀ b ∈ m.common, a.name = b.name → a.same τ.kinds b = .ok true) ∧
      ∃ d, DesignMatrix.ofParts (m.common.map .effect) = .ok d ∧
        d.parts = m.common.map fun e => (e.name, .effect e) := by
  obtain ⟨o, τ, ends, view⟩ := @exists_ends_ofFormula "y ~ I(a+b*c) + a:I(b)" _
    (fun o => (o.response?.isSome, o.effects.map fun e => e.held.map (·.atom)))
    (true, [[], [.call (.call "I" [.binary .add (.name "a") (.binary .mul (.name "b") (.name "c"))]
      [])], [.variable (.text "a") none, .call (.call "I" [.name "b"] [])]])
    (by decide +kernel) (by cbv)
  rw [Prod.mk.injEq] at view
  have word {s : String} (member : s ∈ ["I", "a", "b", "c"]) : CallExpr.IsName s := by
    simp only [mem_cons, not_mem_nil, or_false] at member
    rcases member with rfl | rfl | rfl | rfl <;> exact isName_of_letters (by simp) (by simp)
  have legible : ∀ atoms ∈ o.effects.map (fun e => e.held.map (·.atom)), ∀ atom ∈ atoms,
      atom.Legible fun _ => none := by
    rw [view.2]
    simp [Atom.Legible, CallExpr.Legible, CallExpr.LegibleAll, CallExpr.LegibleNamed,
      CallExpr.tightness, CallExpr.Operator.tightness, word, reservedNames]
  cases o with
  | model m =>
    have own : ∀ e ∈ m.common, e.All (Atom.Legible fun _ => none) := fun e member c inside =>
      legible _ (mem_map_of_mem member) _ (mem_map_of_mem inside)
    obtain ⟨tells, d, made, _, whole⟩ := ofFormula_names_distinct ends own
    have count : m.common.length = 3 := by simpa [effects] using congrArg List.length view.2
    have responds : m.response ≠ none := Option.isSome_iff_ne_none.mp view.1
    exact ⟨m, τ, ends, count, own, tells, d, made, (whole (.inl responds)).1⟩
  | part | response | foreign => simp [response?, effects] at view

set_option maxRecDepth 100000 in
/-- Without its parentheses a product of a sum is named like a sum, and the dictionary loses an
effect. -/
theorem ofFormula_names_clash : ∃ m τ a b,
    Ends (ofFormula "I((a+b)*c) + I(a+b*c)") {} (.model m) τ ∧ a ∈ m.common ∧ b ∈ m.common ∧
      a.same τ.kinds b = .ok false ∧ a.name = b.name ∧
      ∃ d, DesignMatrix.ofParts (m.common.map .effect) = .ok d ∧
        d.parts.length < m.common.length := by
  obtain ⟨o, τ, ends, view⟩ := @exists_ends_ofFormula "I((a+b)*c) + I(a+b*c)" _
    (fun o => (o.effects[1]?.bind fun a => o.effects[2]?.bind fun b =>
        (a.same unknown b).toOption.map fun equal => (a.name == b.name, equal),
      (DesignMatrix.ofParts (o.effects.map .effect)).toOption.map fun d =>
        (d.parts.length, o.effects.length)))
    (some (true, false), some (2, 3)) (by decide +kernel) (by cbv)
  obtain ⟨ts, e, scanned, parsed, tree⟩ := ends_ofFormula ends
  have untyped : τ.kinds = unknown :=
    ((Expr.returns_ofExpr e (Expr.gives_written e)).returns Store.untyped_empty tree).1
  rw [← untyped] at view
  simp only [Prod.mk.injEq, Option.bind_eq_some_iff, Option.map_eq_some_iff, toOption_eq_some,
    beq_iff_eq] at view
  obtain ⟨⟨a, first, b, second, _, apart, names, rfl⟩, d, made, sizes⟩ := view
  cases o with
  | model m =>
    refine ⟨m, τ, a, b, ends, mem_of_getElem? first, mem_of_getElem? second, apart, names,
      d, made, ?_⟩
    have long : m.common.length = 3 := sizes.2
    rw [sizes.1, long]
    decide
  | part p =>
    cases p <;> simp [effects] at second
  | response | foreign => simp [effects] at second

end Operand

end ModelFormula
