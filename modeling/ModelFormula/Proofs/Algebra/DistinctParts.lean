import ModelFormula.Proofs.Algebra.Resolution

/-!
# The parts of a model with a response

The right side of a model with a response is a sum that begins with the intercept, so it is built by
edits, and an edit adds only what is not there.
-/
namespace ModelFormula

open List Model

open Component (unknown)

lemma anyM_eq_false_iff {α : Type} {test : α → Except Fault Bool} {xs : List α} :
    anyM test xs = .ok false ↔ ∀ x ∈ xs, test x = .ok false := by
  induction xs with
  | nil => simp [anyM]
  | cons x xs ih =>
    rw [anyM, forall_mem_cons, ← ih]
    cases test x with
    | error fault => simp [bind, Except.bind]
    | ok b => cases b <;> simp [bind, Except.bind, pure, Except.pure]

lemma eraseM_sublist {α : Type} {test : α → Except Fault Bool} {xs ys : List α}
    (done : eraseM test xs = .ok ys) : ys.Sublist xs := by
  induction xs generalizing ys with
  | nil =>
    cases done
    exact .slnil
  | cons x xs ih =>
    rw [eraseM] at done
    obtain ⟨found, _, done⟩ := bind_eq_ok.mp done
    cases found with
    | true =>
      cases done
      exact sublist_cons_self x xs
    | false =>
      obtain ⟨zs, erased, done⟩ := bind_eq_ok.mp done
      cases done
      exact (ih erased).cons_cons x

/-! ### Edits keep the parts distinct -/

namespace Model

/-- No part is equal to a later one, and the negated intercept is no effect. -/
structure Tidy (m : Model) : Prop where
  plain : ∀ e ∈ m.common, e.isNegated = false
  common : m.common.Pairwise fun a b => a.same unknown b = .ok false
  group : m.group.Pairwise fun a b => a.same unknown b = .ok false

lemma tidy_empty : Tidy {} := ⟨by simp, .nil, .nil⟩

lemma edit_tidy {m m' : Model} (tidy : m.Tidy) (done : m.edit unknown e = .ok m') : m'.Tidy := by
  obtain rfl | ⟨d, _, plain, absent, rfl⟩ | ⟨g, _, absent, rfl⟩ | ⟨d, rest, _, erased, rfl⟩ |
    ⟨g, rest, _, erased, rfl⟩ := edit_cases done
  · exact tidy
  · -- a new effect comes last, and every other has been compared with it
    refine ⟨forall_mem_append.mpr ⟨tidy.plain, by simpa using plain⟩, ?_, tidy.group⟩
    apply pairwise_append.mpr
    refine ⟨tidy.common, pairwise_singleton _ _, ?_⟩
    simpa using anyM_eq_false_iff.mp absent
  · refine ⟨tidy.plain, tidy.common, ?_⟩
    apply pairwise_append.mpr
    refine ⟨tidy.group, pairwise_singleton _ _, ?_⟩
    simpa using anyM_eq_false_iff.mp absent
  · have fewer := eraseM_sublist erased
    exact ⟨fun e mem => tidy.plain e (fewer.subset mem), tidy.common.sublist fewer, tidy.group⟩
  · exact ⟨tidy.plain, tidy.common, tidy.group.sublist (eraseM_sublist erased)⟩

lemma editAll_tidy {m m' : Model} {edits : List Edit} (tidy : m.Tidy)
    (done : m.editAll unknown edits = .ok m') : m'.Tidy :=
  editAll_invariant tidy (fun _ _ _ _ => edit_tidy) done

/-- The intercept in front of another part. -/
lemma tidy_pair (slot : Nat) (noIntercept : ∀ s, x ≠ .effect (.intercept s))
    (noNegated : x ≠ .effect .negated) : (ofParts [.effect (.intercept slot), x]).Tidy := by
  cases x with
  | group g => exact ⟨by simp [ofParts, Effect.isNegated], by simp [ofParts], by simp [ofParts]⟩
  | effect e =>
    cases e with
    | intercept s => exact absurd rfl (noIntercept s)
    | negated => exact absurd rfl noNegated
    | term t =>
      exact ⟨by simp [ofParts, Effect.isNegated], by simp [ofParts, Effect.same], by simp [ofParts]⟩

end Model

/-! ### Sums that begin with the intercept -/

namespace Operand

variable {P : Atom → Prop}

/-- The intercept or a model with distinct parts. -/
def Tidy : Operand → Prop
  | .part (.effect (.intercept _)) => True
  | .model m => m.Tidy
  | _ => False

lemma tidy_of_intercept (slot : Nat) {op : Operator} (summing : op = .add ∨ op = .sub)
    (b : Operand) : Returns (Effect.operateIntercept op slot b) Tidy := by
  unfold Effect.operateIntercept
  split
  · exact runs_pure tidy_empty
  · exact runs_pure trivial
  next x noNegated noIntercept =>
    exact runs_pure (tidy_pair slot (fun s => by simpa using noIntercept s)
      (by simpa using noNegated))
  next m =>
    have alone : (ofEffects [.intercept slot]).Tidy :=
      ⟨by simp [ofEffects, Effect.isNegated], by simp [ofEffects], by simp [ofEffects]⟩
    apply (runs_withKinds (Q := Model.Tidy) (fun m' done => Model.editAll_tidy alone done)
      fun _ _ => trivial).bind
    exact fun m' tidy => runs_pure tidy
  · exact runs_pure tidy_empty
  · exact runs_pure trivial
  · apply runs_pure
    split
    · exact tidy_empty
    · trivial
  · rcases summing with summing | summing <;> cases summing
  · rcases summing with summing | summing <;> cases summing
  · exact runs_throw trivial

/-- Adding to such an operand, or subtracting from it, gives such an operand again. -/
lemma tidy_of_operate {a b : Operand} (summing : op = .add ∨ op = .sub) (left : a.All P)
    (right : b.All P) (tidy : a.Tidy) : Returns (a.operate op b) Tidy := by
  match a with
  | .part (.effect (.intercept slot)) => exact tidy_of_intercept slot summing b
  | .model m =>
    have revising : revises op := by
      rcases summing with rfl | rfl <;> rfl
    apply (runs_revise (R := fun _ => True) (fun _ => trivial) (fun _ _ => trivial)
      (in_left _ b) revising (in_right _ b) (left.append right) (fun _ => trivial)
      fun _ => trivial).imp
    rintro _ ⟨edits, m', done, _, rfl⟩
    exact editAll_tidy tidy done
  | .part (.effect .negated) | .part (.effect (.term _)) | .part (.group _) | .response _
  | .foreign _ => exact tidy.elim

end Operand

namespace Expr

open Operand

variable {P : Atom → Prop}

/-- A sum with a leading `1`. -/
lemma tidy_of_led : ∀ e : Expr, Led e → Gives P e → Returns (ofExpr e) Tidy
  | .literal v lexeme, led, _ => by
    obtain rfl : v = .int 1 := led
    rw [ofExpr, if_neg (by decide), if_pos (by decide)]
    apply (runs_newIntercept (P := P)).bind
    rintro e ⟨_, isIntercept⟩
    cases e with
    | intercept s => exact runs_pure trivial
    | negated | term => cases isIntercept
  | .binary l op r, led, gives => by
    obtain ⟨f, found, summing⟩ : ∃ f, operator? op.kind = some f ∧ (f = .add ∨ f = .sub) := by
      rcases led.1 with plus | minus
      · exact ⟨.add, congrArg operator? plus, .inl rfl⟩
      · exact ⟨.sub, congrArg operator? minus, .inr rfl⟩
    have first := (returns_ofExpr l gives.1).and (tidy_of_led l led.2 gives.1)
    apply runs_operation rfl found first (returns_ofExpr r gives.2)
    rintro a b ⟨left, tidy⟩ right
    exact tidy_of_operate summing left right tidy

/-- An operand with a response is a model with distinct parts. -/
def Orderly (o : Operand) : Prop := o.response? ≠ none → o.Tidy

lemma Free.orderly (free : o.Free P) : Orderly o :=
  fun responds => absurd free.none responds

lemma orderly_of_addToResponse (t : Term) (tidy : o.Tidy) :
    Returns (addToResponse t o) Orderly := by
  match o with
  | .part (.effect (.intercept s)) =>
    exact runs_pure fun _ => ⟨by simp [ofParts, Effect.isNegated], by simp [ofParts],
      by simp [ofParts]⟩
  | .model m => exact runs_pure fun _ => ⟨tidy.plain, tidy.common, tidy.group⟩
  | .part (.effect .negated) | .part (.effect (.term _)) | .part (.group _) | .response _
  | .foreign _ => exact tidy.elim

lemma orderly_of_operate {a b : Operand} (op : Operator) (left : a.All P) (right : b.All P)
    (orderly : Orderly a) : Returns (a.operate op b) Orderly := by
  apply (returns_operate op left right).imp
  rintro o (free | ⟨m, rfl, edits, m', done, _, rfl⟩)
  · exact Free.orderly free
  · intro responds
    refine editAll_tidy (orderly ?_) done
    simpa [response?, editAll_response done] using responds

/-- A response is given by a tilde, whose right side has distinct parts, and is kept by edits only. -/
lemma orderly_of_tildesLed : ∀ e : Expr, TildesLed e → Gives P e → Returns (ofExpr e) Orderly
  | .grouping e, led, gives => by
    rw [ofExpr]
    exact orderly_of_tildesLed e led gives
  | .binary l op r, led, gives => by
    rw [ofExpr]
    split
    next tilde =>
      apply (returns_ofExpr l gives.1).bind
      intro a _
      apply (returns_asResponse a).bind
      intro t _
      apply (tidy_of_led r (led.2.2 tilde) gives.2).bind
      exact fun b tidy => orderly_of_addToResponse t tidy
    next =>
      split
      · apply ((returns_ofExpr l gives.1).and (orderly_of_tildesLed l led.1 gives.1)).bind
        rintro a ⟨left, orderly⟩
        apply (returns_ofExpr r gives.2).bind
        exact fun b right => orderly_of_operate _ left right orderly
      · exact runs_throw trivial
  | .unary op e, led, gives => by
    rw [ofExpr]
    split
    · exact orderly_of_tildesLed e led gives
    · apply (returns_ofExpr e gives).bind
      intro a _
      exact (returns_negate (P := P) a).imp fun _ => Free.orderly
    · exact runs_throw trivial
  | .call _ _, _, gives | .name _, _, gives | .subset _ _, _, gives | .quotedName _, _, gives
  | .literal _ _, _, gives | .assign _ _, _, gives =>
    (free_of_leaf (by trivial) gives).imp fun _ => Free.orderly

/-- The common effects of a tree that a `1` begins. -/
lemma distinct_of_begun (begun : Begun e) (gives : Gives P e) :
    Returns (ofExpr e) fun o => o.effects.Pairwise fun a b => a.same unknown b = .ok false := by
  have led (led : Led e) :
      Returns (ofExpr e) fun o => o.effects.Pairwise fun a b => a.same unknown b = .ok false := by
    apply (tidy_of_led e led gives).imp
    intro o tidy
    match o with
    | .part (.effect (.intercept _)) => exact pairwise_singleton _ _
    | .model m => exact tidy.common
    | .part (.effect .negated) | .part (.effect (.term _)) | .part (.group _) | .response _
    | .foreign _ => exact tidy.elim
  cases e with
  | binary l op r =>
    rcases begun with sum | comparison | pipe
    · exact led sum
    · -- a comparison is no operator of the algebra
      have none : op.kind ≠ .tilde ∧ operator? op.kind = none := by
        simp only [Parse.Level.operators, mem_cons, not_mem_nil, or_false] at comparison
        rcases comparison with kind | kind | kind | kind | kind | kind <;> simp [kind, operator?]
      rw [ofExpr, if_neg none.1, none.2]
      exact runs_throw trivial
    · apply runs_operation pipe rfl (returns_ofExpr l gives.1) (returns_ofExpr r gives.2)
      intro a b left right
      apply (effects_of_bar left right).imp
      intro o none
      rw [none]
      exact Pairwise.nil
  | assign | grouping | unary | call | name | subset | quotedName | literal => exact led begun

/-- A formula puts variables and calls into its terms, and no call has a keyword twice. -/
lemma gives_written : ∀ e : Expr, Gives Atom.Written e
  | .grouping e => gives_written e
  | .binary l _ r => ⟨gives_written l, gives_written r⟩
  | .unary _ e => gives_written e
  | .call f args => fun _ read => CallExpr.keyed_of_ofExpr (.call f args) read
  | .name _ | .quotedName _ | .assign _ _ => trivial
  | .subset _ _ | .literal _ _ => fun _ _ => trivial

end Expr

namespace Operand

/-- Whatever operators a formula nests: if its model has a response, every common effect is a term or
the intercept, and no two common effects are equal, seen from either side, nor are two
group-specific terms. Each part has been compared with all that came before it, without a fault. -/
theorem ofFormula_parts_distinct {formula : String} {m : Model} {τ : Store}
    (ends : Ends (ofFormula formula) {} (.model m) τ) (responds : m.response ≠ none) :
    (∀ e ∈ m.common, (∃ t, e = .term t) ∨ ∃ slot, e = .intercept slot) ∧
    .negated ∉ m.common ∧
    (m.common.Pairwise fun a b => a.same τ.kinds b = .ok false ∧ b.same τ.kinds a ≠ .ok true) ∧
    m.group.Pairwise fun a b => a.same τ.kinds b = .ok false ∧ b.same τ.kinds a ≠ .ok true := by
  obtain ⟨ts, e, scanned, parsed, ends⟩ := ends_ofFormula ends
  have led := Expr.tildesLed_of_formula scanned parsed
  have gives := Expr.gives_written e
  obtain ⟨untyped, written⟩ := (Expr.returns_ofExpr e gives).returns Store.untyped_empty ends
  obtain ⟨-, orderly⟩ := (Expr.orderly_of_tildesLed e led gives).returns Store.untyped_empty ends
  have tidy : m.Tidy := orderly responds
  rw [untyped]
  refine ⟨?_, ?_, ?_, ?_⟩
  · intro e member
    have plain := tidy.plain e member
    cases e with
    | intercept slot => exact .inr ⟨slot, rfl⟩
    | negated => cases plain
    | term t => exact .inl ⟨t, rfl⟩
  · intro member
    cases tidy.plain _ member
  · apply tidy.common.imp_of_mem
    intro a b _ inside apart
    refine ⟨apart, fun equal => ?_⟩
    rw [Effect.same_symm (written.common b inside) equal] at apart
    cases apart
  · apply tidy.group.imp_of_mem
    intro a b _ inside apart
    refine ⟨apart, fun equal => ?_⟩
    rw [GroupTerm.same_symm (written.group b inside) equal] at apart
    cases apart

/-- A view of the operand of a formula, by its tokens and its tree. -/
lemma exists_ends_ofFormula {formula : String} {β : Type} {g : Operand → β} {v : β}
    (given : formula.isEmpty = false)
    (value : ((Token.tokens formula.toList).toOption.bind fun us =>
      if us.countP Token.isTilde ≤ 1 then
        (Expr.parse (Token.withIntercept (us ++ [Token.endMark]))).toOption.bind fun e =>
          (outcome (ofExpr e) {}).1.toOption.map g
      else none) = some v) :
    ∃ o τ, Ends (ofFormula formula) {} o τ ∧ g o = v := by
  obtain ⟨us, read, value⟩ := Option.bind_eq_some_iff.mp value
  split at value
  next single =>
    obtain ⟨e, parsed, value⟩ := Option.bind_eq_some_iff.mp value
    obtain ⟨o, τ, ends, holds⟩ := exists_ends value
    rw [toOption_eq_some] at read parsed
    have scanned : Token.scan formula = .ok (Token.withIntercept (us ++ [Token.endMark])) := by
      simp [Token.scan, given, read, ok_bind, pure_ok, Nat.not_lt.mpr single]
    refine ⟨o, τ, ends_bind.mpr ⟨_, {}, ends_lift.mpr ⟨scanned, rfl⟩, ?_⟩, holds⟩
    exact ends_bind.mpr ⟨e, {}, ends_lift.mpr ⟨parsed, rfl⟩, ends⟩
  next => cases value

set_option maxRecDepth 100000 in
/-- The products of `a` with `a` and `b`, without the intercept, and a grouping that is written
twice. -/
theorem ofFormula_parts_distinct_product : ∃ m τ,
    Ends (ofFormula "y ~ 0 + a*(a+b) + (a|g) + (a|g)") {} (.model m) τ ∧
      m.response ≠ none ∧ m.common.length = 3 ∧ m.group.length = 2 ∧
      .negated ∉ m.common ∧
      (m.common.Pairwise fun a b => a.same τ.kinds b = .ok false ∧ b.same τ.kinds a ≠ .ok true) ∧
      m.group.Pairwise fun a b => a.same τ.kinds b = .ok false ∧ b.same τ.kinds a ≠ .ok true := by
  obtain ⟨o, τ, ends, sizes⟩ := @exists_ends_ofFormula "y ~ 0 + a*(a+b) + (a|g) + (a|g)" _
    (fun o => (o.response?.isSome, o.effects.length, o.groups.length)) (true, 3, 2)
    (by decide +kernel) (by cbv)
  simp only [Prod.mk.injEq] at sizes
  cases o with
  | model m =>
    have responds : m.response ≠ none := Option.isSome_iff_ne_none.mp sizes.1
    obtain ⟨_, plain, common, group⟩ := ofFormula_parts_distinct ends responds
    exact ⟨m, τ, ends, responds, sizes.2.1, sizes.2.2, plain, common, group⟩
  | part | response | foreign => simp [response?, effects] at sizes

end Operand

end ModelFormula
