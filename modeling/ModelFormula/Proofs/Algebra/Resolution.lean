import ModelFormula.Proofs.Algebra.Operators

/-!
# The parts of a formula's model

An operator finds its operands' effects apart and keeps them so. By induction on the expression, the
common effects of the model of a formula, its group-specific terms and its response never share a
slot.
-/
namespace ModelFormula

namespace Operand

open List

variable {σ : Store} {o : Operand}

/-- Nothing is at hand. -/
def nothing : Pool := ⟨[], [], [], by simp, [], []⟩

lemma nothing_separate (σ : Store) : nothing.Separate σ σ :=
  ⟨Extends.refl σ, owned_nil, owned_nil, by simp [nothing, Pool.groupComponents]⟩

lemma separate_of_keeps (keeps : Keeps σ nothing x fun q o => o.MadeOf q) (ends : Ends x σ o τ) :
    o.pool.Separate σ τ := by
  obtain ⟨_, q, _, separate, made⟩ := keeps σ o τ (nothing_separate σ) ends
  exact made.separate separate

lemma works_ofAtom (holds : P atom) :
    Works P (fun _ => True) σ p (ofAtom atom) fun q o => o.Fresh q :=
  (works_newComponent holds).bind fun _ _ _ made =>
    (works_newTerm (fun _ => trivial) (cons_subset.mpr ⟨made, nil_subset _⟩)).bind
      fun _ _ _ made => works_pure (.effect made)

lemma keeps_ofAtom (atom : Atom) : Keeps σ p (ofAtom atom) fun q o => o.MadeOf q :=
  (works_ofAtom (P := fun _ => True) trivial).keeps.imp fun _ _ _ fresh => fresh.madeOf

lemma negated_separate (grows : Extends σ τ) : (ofEffect .negated).pool.Separate σ τ := by
  have owners : (ofEffect .negated).pool.partOwners = [(.atHand, .effect .negated)] := rfl
  refine ⟨grows, ?_, owned_nil, fun c mem => by cases mem⟩
  rw [owners]
  exact ⟨by simp [Part.slot?, Effect.slot?], by simp⟩

lemma negate_separate (before : o.pool.Separate σ ρ) (ends : Ends (negate o) ρ o' τ) :
    o'.pool.Separate σ τ := by
  unfold negate at ends
  split at ends
  · obtain ⟨rfl, rfl⟩ := ends_pure.mp ends
    exact negated_separate before.grows
  · have keeps : Keeps σ (ofEffect .negated).pool (do return ofEffect (← Fit.newIntercept))
        fun q o => o.MadeOf q :=
      keeps_newIntercept.bind fun q e _ made => keeps_pure (.collected (in_part.mpr made))
    obtain ⟨_, q, _, separate, made⟩ := keeps ρ o' τ before ends
    exact made.separate separate
  · exact (ends_throw ends).elim

/-- Marking the response leaves everything that was made before. -/
lemma asResponse_separate (before : o.pool.Separate σ ρ) (ends : Ends o.asResponse ρ t τ) :
    (Operand.response t).pool.Separate σ τ := by
  unfold asResponse at ends
  split at ends
  next t' =>
    split at ends
    next c single =>
      simp only [ends_bind, ends_modify, ends_pure] at ends
      obtain ⟨_, _, rfl, rfl, rfl⟩ := ends
      have owner : (.atHand, c) ∈ (Operand.part (.effect (.term t'))).pool.componentOwners := by
        simp [Pool.componentOwners, pool, effects, Effect.held, single]
      have low := (before.components.range _ owner c.slot rfl).1
      have grows : Extends σ { ρ with
          components := ρ.components.modify c.slot fun s => { s with isResponse := true } } := by
        refine ⟨by simpa using before.grows.componentsSize, before.grows.partsSize, ?_,
          before.grows.part⟩
        intro s old
        have other : c.slot ≠ s := by omega
        rw [← before.grows.component s old]
        simp [Store.component, Array.getElem?_modify, other]
      -- the effect and its component were at hand and are those of the response now
      have parts : (Operand.response t').pool.partOwners = [(.response, .effect (.term t'))] := rfl
      have components : (Operand.response t').pool.componentOwners = [(.response, c)] := by
        simp [Pool.componentOwners, Pool.groupComponents, pool, effects, groups, response?, single]
      refine ⟨grows, before.parts.move .response ?_, ?_, fun d mem => by cases mem⟩
      · rw [parts]
        exact forall_mem_singleton.mpr ⟨rfl, .atHand, mem_cons_self⟩
      · rw [Array.size_modify, components]
        exact before.components.move .response (forall_mem_singleton.mpr ⟨rfl, .atHand, owner⟩)
    next => exact (ends_throw ends).elim
  next => exact (ends_throw ends).elim

/-- The operand of an expression: what is at hand was made for it, and no slot has two owners. -/
lemma ofExpr_separate : ∀ (e : Expr) {σ τ : Store} {o : Operand},
    Ends (ofExpr e) σ o τ → o.pool.Separate σ τ
  | .grouping e, σ, τ, o, ends => by
    rw [ofExpr] at ends
    exact ofExpr_separate e ends
  | .binary l op r, σ, τ, o, ends => by
    rw [ofExpr] at ends
    split at ends
    · obtain ⟨a, ρ, left, ends⟩ := ends_bind.mp ends
      obtain ⟨t, ρ', marked, ends⟩ := ends_bind.mp ends
      obtain ⟨b, υ, right, ends⟩ := ends_bind.mp ends
      have response := asResponse_separate (ofExpr_separate l left) marked
      have both := response.append (ofExpr_separate r right)
      have keeps := keeps_addToResponse (σ := σ) ((in_left (.response t) b).response t rfl)
        (in_right _ b)
      obtain ⟨_, q, _, separate, made⟩ := keeps υ o τ both ends
      exact made.separate separate
    · split at ends
      · next f _ =>
        obtain ⟨a, ρ, left, ends⟩ := ends_bind.mp ends
        obtain ⟨b, υ, right, ends⟩ := ends_bind.mp ends
        have both := (ofExpr_separate l left).append (ofExpr_separate r right)
        have keeps := keeps_operate (σ := σ) f (in_left a b) (in_right a b)
        obtain ⟨_, q, _, separate, made⟩ := keeps υ o τ both ends
        exact made.separate separate
      · exact (ends_throw ends).elim
  | .unary op e, σ, τ, o, ends => by
    rw [ofExpr] at ends
    split at ends
    · exact ofExpr_separate e ends
    · obtain ⟨a, ρ, inner, ends⟩ := ends_bind.mp ends
      exact negate_separate (ofExpr_separate e inner) ends
    · exact (ends_throw ends).elim
  | .call f args, σ, τ, o, ends => by
    rw [ofExpr] at ends
    obtain ⟨c, _, ends⟩ := ends_lift_bind.mp ends
    exact separate_of_keeps (keeps_ofAtom _) ends
  | .name t, σ, τ, o, ends | .quotedName t, σ, τ, o, ends => by
    rw [ofExpr] at ends
    exact separate_of_keeps (keeps_ofAtom _) ends
  | .subset t level, σ, τ, o, ends => by
    rw [ofExpr] at ends
    obtain ⟨v, _, ends⟩ := ends_lift_bind.mp ends
    exact separate_of_keeps (keeps_ofAtom _) ends
  | .literal v t, σ, τ, o, ends => by
    rw [ofExpr] at ends
    split at ends
    · obtain ⟨rfl, rfl⟩ := ends_pure.mp ends
      exact negated_separate (Extends.refl σ)
    · split at ends
      · refine separate_of_keeps ?_ ends
        exact keeps_newIntercept.bind fun q e _ made => keeps_pure (.collected (in_part.mpr made))
      · exact separate_of_keeps (keeps_ofAtom _) ends
  | .assign _ _, σ, τ, o, ends => by
    rw [ofExpr] at ends
    exact (ends_throw ends).elim

/-- The operand of a formula comes from its tree. -/
lemma ends_ofFormula (ends : Ends (ofFormula formula) σ o τ) :
    ∃ ts e, Token.scan formula = .ok ts ∧ Expr.parse ts = .ok e ∧ Ends (ofExpr e) σ o τ := by
  obtain ⟨ts, scanned, ends⟩ := ends_lift_bind.mp ends
  obtain ⟨e, parsed, ends⟩ := ends_lift_bind.mp ends
  exact ⟨ts, e, scanned, parsed, ends⟩

lemma ofFormula_separate (ends : Ends (ofFormula formula) σ o τ) : o.pool.Separate σ τ := by
  obtain ⟨_, e, _, _, ends⟩ := ends_ofFormula ends
  exact ofExpr_separate e ends

/-!
### Where the components of a tree come from

Operators make nothing up: an operand that a tree comes to is made of the atoms of the tree, and so is
its response.
-/

variable {P : Atom → Prop}

/-- The response of an operand is that of the model on the left, which has been revised. -/
lemma returns_operate {a b : Operand} (op : Operator) (left : a.All P) (right : b.All P) :
    Returns (a.operate op b) fun o => o.Free P ∨ ∃ m, a = .model m ∧ m.Revised P o :=
  (runs_operate (R := fun _ => True) (fun _ => trivial) (fun _ _ => trivial) op left right
    (fun _ _ _ _ _ _ => trivial) (fun _ => trivial) fun _ => trivial)

/-- All components of an operand have the property, those of its response included. -/
structure Throughout (P : Atom → Prop) (o : Operand) : Prop where
  all : o.All P
  response : ∀ t ∈ o.response?, (Effect.term t).All P

lemma Free.throughout {o : Operand} (free : o.Free P) : o.Throughout P :=
  ⟨free.all, by simp [free.none]⟩

lemma throughout_of_operate {a b : Operand} (op : Operator) (left : a.Throughout P)
    (right : b.Throughout P) : Returns (a.operate op b) (Throughout P) := by
  apply (returns_operate op left.all right.all).imp
  rintro o (free | ⟨m, rfl, revised⟩)
  · exact free.throughout
  · refine ⟨revised.all left.all, ?_⟩
    obtain ⟨edits, m', done, _, rfl⟩ := revised
    intro t among
    have kept : m'.response = m.response := Model.editAll_response done
    exact left.response t (kept.symm.trans among)

/-- A response is the operand itself. -/
lemma returns_asResponse (o : Operand) : Returns o.asResponse fun t => o = ofTerm t := by
  unfold asResponse
  split
  · split
    · exact fun _ untyped => ⟨untyped.modify _ fun _ => rfl, rfl⟩
    · exact runs_throw trivial
  · exact runs_throw trivial

lemma returns_addToResponse (own : (Effect.term t).All P) (right : o.All P) :
    Returns (addToResponse t o) (Throughout P) := by
  have response : ∀ u ∈ some t, (Effect.term u).All P := by simpa using own
  match o with
  | .part (.effect .negated) => exact runs_throw trivial
  | .part (.effect (.intercept _)) | .part (.effect (.term _)) | .part (.group _) =>
    exact runs_pure ⟨Model.all_ofParts (List.forall_mem_singleton.mpr right), response⟩
  | .model m => exact runs_pure ⟨⟨right.common, right.group⟩, response⟩
  | .response _ | .foreign _ => exact right.elim

lemma returns_ofAtom (holds : P atom) : Returns (ofAtom atom) fun o => o.Free P := by
  refine ((works_ofAtom (σ := {}) (p := nothing) holds).runs ⟨by simp [nothing], by simp [nothing]⟩).imp ?_
  rintro o ⟨q, _, all, fresh⟩
  exact fresh.free all

lemma returns_negate (o : Operand) : Returns (negate o) fun r => r.Free P := by
  unfold negate
  split
  · exact runs_pure (⟨Effect.all_negated, rfl⟩)
  · exact (runs_newIntercept (P := P)).bind fun e new => runs_pure (⟨new.1, rfl⟩)
  · exact runs_throw trivial

end Operand

namespace Expr

open Operand

variable {P : Atom → Prop}

/-- The atoms that a tree puts into terms have the property. -/
def Gives (P : Atom → Prop) : Expr → Prop
  | .grouping e => Gives P e
  | .binary l _ r => Gives P l ∧ Gives P r
  | .unary _ e => Gives P e
  | .call f args => ∀ e, CallExpr.ofExpr (.call f args) = .ok e → P (.call e)
  | .name t => P (.variable (.text t.lexeme) none)
  | .subset t level => ∀ v, levelValue level = .ok v → P (.variable (.text t.lexeme) (some v))
  | .quotedName t => P (.variable (.text (unquote t.lexeme)) none)
  | .literal v _ => (v == .int 0) = false → (v == .int 1) = false → P (.variable v none)
  | .assign _ _ => True

/-- A tree without operators. -/
def Leaf : Expr → Prop
  | .grouping _ | .binary _ _ _ | .unary _ _ => False
  | _ => True

lemma free_of_leaf : ∀ {e : Expr}, Leaf e → Gives P e → Returns (ofExpr e) fun o => o.Free P
  | .call _ _, _, gives | .subset _ _, _, gives => by
    rw [ofExpr]
    exact (runs_lift gives fun _ _ => trivial).bind fun _ holds => returns_ofAtom holds
  | .name _, _, gives | .quotedName _, _, gives => by
    rw [ofExpr]
    exact returns_ofAtom gives
  | .literal _ _, _, gives => by
    rw [ofExpr]
    split
    · exact runs_pure (⟨Effect.all_negated, rfl⟩)
    · split
      · exact (runs_newIntercept (P := P)).bind fun e new => runs_pure (⟨new.1, rfl⟩)
      next zero one => exact returns_ofAtom (gives (by simpa using zero) (by simpa using one))
  | .assign _ _, _, _ => by
    rw [ofExpr]
    exact runs_throw trivial

/-- An operand is made of the atoms of its tree. -/
lemma throughout_of_ofExpr : ∀ e : Expr, Gives P e → Returns (ofExpr e) (Throughout P)
  | .grouping e, gives => by
    rw [ofExpr]
    exact throughout_of_ofExpr e gives
  | .binary l op r, gives => by
    rw [ofExpr]
    split
    · refine (throughout_of_ofExpr l gives.1).bind fun a left => ?_
      refine (returns_asResponse a).bind fun t same => ?_
      subst same
      exact (throughout_of_ofExpr r gives.2).bind fun b right =>
        returns_addToResponse left.all right.all
    · split
      · refine (throughout_of_ofExpr l gives.1).bind fun a left => ?_
        exact (throughout_of_ofExpr r gives.2).bind fun b right => throughout_of_operate _ left right
      · exact runs_throw trivial
  | .unary op e, gives => by
    rw [ofExpr]
    split
    · exact throughout_of_ofExpr e gives
    · apply (throughout_of_ofExpr e gives).bind
      intro a _
      exact (returns_negate a).imp fun _ => Free.throughout
    · exact runs_throw trivial
  | .call _ _, gives | .name _, gives | .subset _ _, gives | .quotedName _, gives
  | .literal _ _, gives | .assign _ _, gives =>
    (free_of_leaf (by trivial) gives).imp fun _ => Free.throughout

lemma returns_ofExpr (e : Expr) (gives : Gives P e) : Returns (ofExpr e) fun o => o.All P :=
  (throughout_of_ofExpr e gives).imp fun _ => Throughout.all

end Expr

end ModelFormula
