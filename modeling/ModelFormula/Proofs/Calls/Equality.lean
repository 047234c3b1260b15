import Mathlib
import ModelFormula.Proofs.Algebra.Footprint

/-!
# Equality of call expressions

Equality looks from one tree at another and may stop with a fault. Where it returns yes, it does so
from the other side as well, as long as no call gives a keyword twice; the trees of formulas never
do.
-/
namespace ModelFormula

open List

variable {named : List (String × CallExpr)} {x y : Except Fault Bool} {α β : Type}
  {f : α → Except Fault β}

lemma bind_eq_ok {x : Except Fault α} {b : β} :
    (x >>= f) = .ok b ↔ ∃ a, x = .ok a ∧ f a = .ok b := by
  cases x <;> simp [bind, Except.bind]

lemma bind_eq_error {x : Except Fault α} :
    (x >>= f) = .error fault ↔ x = .error fault ∨ ∃ a, x = .ok a ∧ f a = .error fault := by
  cases x <;> simp [bind, Except.bind]

/-- A test that is made only if the one before it holds. -/
lemma andThen_eq_true :
    (x >>= fun b => if b = false then pure false else y) = .ok true ↔ x = .ok true ∧ y = .ok true := by
  obtain _ | _ | _ := x <;> simp [bind, Except.bind, pure, Except.pure]

lemma andThen_eq_error : (x >>= fun b => if b = false then pure false else y) = .error fault ↔
      x = .error fault ∨ x = .ok true ∧ y = .error fault := by
  obtain _ | _ | _ := x <;> simp [bind, Except.bind, pure, Except.pure]

lemma forall₂_flip {R : α → β → Prop} {S : β → α → Prop} {xs : List α} {ys : List β}
    (all : List.Forall₂ R xs ys) (turn : ∀ x ∈ xs, ∀ y, R x y → S y x) : List.Forall₂ S ys xs := by
  induction all with
  | nil => exact .nil
  | cons first _ ih =>
    obtain ⟨here, there⟩ := forall_mem_cons.mp turn
    exact .cons (here _ first) (ih there)

lemma forall₂_of_map_eq {f : α → β} {R : α → α → Prop} {xs ys : List α}
    (equal : xs.map f = ys.map f) (holds : ∀ x ∈ xs, ∀ y ∈ ys, f x = f y → R x y) :
    List.Forall₂ R xs ys := by
  induction xs generalizing ys with
  | nil =>
    obtain rfl := map_eq_nil_iff.mp equal.symm
    exact .nil
  | cons x xs ih =>
    cases ys with
    | nil => cases equal
    | cons y ys =>
      rw [map_cons, map_cons, cons.injEq] at equal
      apply Forall₂.cons (holds x (by simp) y (by simp) equal.1)
      apply ih equal.2
      intro u left v right
      exact holds u (mem_cons_of_mem x left) v (mem_cons_of_mem y right)

/-! ### Literals -/

lemma Literal.beq_comm (v w : Literal) : (v == w) = (w == v) := by
  show v.same w = w.same v
  cases v <;> cases w <;> simp only [Literal.same]
  · exact Bool.beq_comm
  · exact BEq.comm
  · exact Bool.beq_comm

lemma optionLiteral_beq_comm (v w : Option Literal) : (v == w) = (w == v) := by
  cases v <;> cases w <;> simp [Literal.beq_comm]

/-! ### Call expressions -/

namespace CallExpr

/-- A tree by its operations, a call by all of its arguments. -/
@[induction_eliminator]
lemma induction {P : CallExpr → Prop} (unary : ∀ sign e, P e → P (unary sign e))
    (binary : ∀ op l r, P l → P r → P (binary op l r)) (name : ∀ s, P (name s))
    (value : ∀ literal lexeme, P (value literal lexeme))
    (call : ∀ f args named, (∀ e ∈ args, P e) → (∀ p ∈ named, P p.2) → P (call f args named))
    (e : CallExpr) : P e :=
  @CallExpr.rec P (fun es => ∀ e ∈ es, P e) (fun es => ∀ p ∈ es, P p.2) (fun p => P p.2)
    unary binary name value call
    (by simp) (fun _ _ first others => forall_mem_cons.mpr ⟨first, others⟩)
    (by simp) (fun _ _ first others => forall_mem_cons.mpr ⟨first, others⟩)
    (fun _ _ holds => holds) e

mutual

/-- No call gives a keyword twice. -/
def Keyed : CallExpr → Prop
  | unary _ e => Keyed e
  | binary _ l r => Keyed l ∧ Keyed r
  | name _ => True
  | value _ _ => True
  | call _ args named => KeyedAll args ∧ (named.map Prod.fst).Nodup ∧ KeyedNamed named

def KeyedAll : List CallExpr → Prop
  | [] => True
  | e :: es => Keyed e ∧ KeyedAll es

def KeyedNamed : List (String × CallExpr) → Prop
  | [] => True
  | (_, e) :: es => Keyed e ∧ KeyedNamed es

end

lemma keyedAll_iff (es : List CallExpr) : KeyedAll es ↔ ∀ e ∈ es, Keyed e := by
  induction es with
  | nil => simp [KeyedAll]
  | cons e es ih => simp [KeyedAll, ih]

lemma keyedNamed_iff (es : List (String × CallExpr)) : KeyedNamed es ↔ ∀ p ∈ es, Keyed p.2 := by
  induction es with
  | nil => simp [KeyedNamed]
  | cons p es ih => simp [KeyedNamed, ih]

/-- All of these are found equal to all of those, one by one. -/
abbrev SameAll : List CallExpr → List CallExpr → Prop := List.Forall₂ fun e d => same e d = .ok true

/-- Every keyword has an equal value among the others. -/
def SameNamed (es ds : List (String × CallExpr)) : Prop :=
  ∀ p ∈ es, ∃ q, ds.find? (·.1 == p.1) = some q ∧ same p.2 q.2 = .ok true

lemma sameList_iff (long : es.length = ds.length) :
    sameList es ds = .ok true ↔ SameAll es ds := by
  induction es generalizing ds with
  | nil =>
    obtain rfl := length_eq_zero_iff.mp long.symm
    simp [sameList]
  | cons e es ih =>
    cases ds with
    | nil => simp at long
    | cons d ds => simp [sameList, andThen_eq_true, ih (Nat.succ.inj long)]

lemma sameNamed_iff (es ds : List (String × CallExpr)) :
    sameNamed es ds = .ok true ↔ SameNamed es ds := by
  induction es with
  | nil => simp [sameNamed, SameNamed]
  | cons p es ih =>
    rw [SameNamed, forall_mem_cons, ← SameNamed, ← ih, sameNamed]
    cases ds.find? (·.1 == p.1) with
    | none => simp
    | some q => simp [andThen_eq_true]

/-! What a tree equals is built in the same way. -/

section Inversion

variable {d : CallExpr}

-- each of these lemmas opens one comparison of two trees, whatever the second is
attribute [local simp] same

lemma same_unary_iff : same (unary sign e) d = .ok true ↔
    ∃ e', d = unary sign e' ∧ same e e' = .ok true := by
  cases d with
  | unary sign' d => simp [ite_eq_iff, eq_comm (a := sign)]
  | binary op l r => simp [bind_eq_ok, pure_ok, ite_eq_iff]
  | name | value | call => simp

lemma same_binary_iff : same (binary op l r) d = .ok true ↔
    ∃ l' r', d = binary op l' r' ∧ same l l' = .ok true ∧ same r r' = .ok true := by
  cases d with
  | binary op' l' r' => simp [ite_eq_iff, andThen_eq_true, eq_comm (a := op)]
  | unary sign e => simp [bind_eq_ok, pure_ok, ite_eq_iff]
  | name | value | call => simp

lemma same_name_iff : same (name s) d = .ok true ↔ d = name s := by
  cases d <;> simp [eq_comm (a := s)]

lemma same_value_iff {v : Literal} {x : Option String} :
    same (value v x) d = .ok true ↔ ∃ w, d = value w x ∧ v == w := by
  cases d <;> simp [and_comm, eq_comm (a := x)]

lemma same_call_iff {f : String} :
    same (call f args named) d = .ok true ↔ ∃ args' named', d = call f args' named' ∧
      SameAll args args' ∧ named.length = named'.length ∧ SameNamed named named' := by
  cases d with
  | call f' args' named' =>
    by_cases callee : f = f'
    case neg => simp [callee, Ne.symm callee]
    by_cases long : args.length = args'.length
    case neg =>
      have apart : ¬ SameAll args args' := fun all => long all.length_eq
      simp [long, apart, ← and_assoc]
    have never : (pure false : Except Fault Bool) ≠ .ok true := nofun
    simp [callee, long, andThen_eq_true, ite_eq_iff, never, sameList_iff long, sameNamed_iff]
  | unary | binary | name | value => simp

end Inversion

variable {es : List (String × CallExpr)} {p : String × CallExpr} {plain : List CallExpr}
  {e : CallExpr}

/-- Among pairs with distinct keys a pair is found by its key. -/
lemma find?_key_eq_some (nodup : (es.map Prod.fst).Nodup) (mem : p ∈ es) :
    es.find? (·.1 == p.1) = some p := by
  induction es with
  | nil => simp at mem
  | cons q es ih =>
    rw [map_cons, nodup_cons] at nodup
    rcases mem_cons.mp mem with rfl | later
    · simp
    · have other : q.1 ≠ p.1 := fun same => nodup.1 (same ▸ mem_map_of_mem later)
      rw [find?_cons_of_neg (by simpa using other)]
      exact ih nodup.2 later

/-- If all keywords of a call are found among as many others, these are no more than they. -/
lemma perm_keys (nodup : (es.map Prod.fst).Nodup) (count : es.length = ds.length)
    (found : SameNamed es ds) : (es.map Prod.fst).Perm (ds.map Prod.fst) := by
  refine (nodup.subperm ?_).perm_of_length_le (by simp [count])
  intro k mem
  obtain ⟨p, inside, rfl⟩ := mem_map.mp mem
  obtain ⟨q, first, _⟩ := found p inside
  have key : q.1 = p.1 := by simpa using find?_some first
  rw [← key]
  exact mem_map_of_mem (mem_of_find?_eq_some first)

lemma same_symm {e d : CallExpr} (keyed : Keyed e) (equal : same e d = .ok true) :
    same d e = .ok true := by
  induction e generalizing d with
  | unary sign e ih =>
    obtain ⟨d, rfl, inner⟩ := same_unary_iff.mp equal
    exact same_unary_iff.mpr ⟨e, rfl, ih keyed inner⟩
  | binary op l r ihl ihr =>
    obtain ⟨l', r', rfl, left, right⟩ := same_binary_iff.mp equal
    exact same_binary_iff.mpr ⟨l, r, rfl, ihl keyed.1 left, ihr keyed.2 right⟩
  | name s =>
    obtain rfl := same_name_iff.mp equal
    exact equal
  | value v x =>
    obtain ⟨w, rfl, values⟩ := same_value_iff.mp equal
    exact same_value_iff.mpr ⟨v, rfl, Literal.beq_comm v w ▸ values⟩
  | call f args named ihArgs ihNamed =>
    obtain ⟨keyedArgs, nodup, keyedNamed⟩ := keyed
    rw [keyedAll_iff] at keyedArgs
    rw [keyedNamed_iff] at keyedNamed
    obtain ⟨args', named', rfl, all, count, found⟩ := same_call_iff.mp equal
    have keys := perm_keys nodup count found
    refine same_call_iff.mpr ⟨args, named, rfl, ?_, count.symm, ?_⟩
    · apply forall₂_flip all
      intro e mem d equal
      exact ihArgs e mem (keyedArgs e mem) equal
    · -- a keyword of the right call is one of the left call, and there it leads back
      intro q inside
      have key : q.1 ∈ named.map Prod.fst := keys.mem_iff.mpr (mem_map_of_mem inside)
      obtain ⟨p, mem, same⟩ := mem_map.mp key
      obtain ⟨q', first, equal⟩ := found p mem
      rw [same, find?_key_eq_some (keys.nodup_iff.mp nodup) inside] at first
      cases first
      refine ⟨p, ?_, ihNamed p mem (keyedNamed p mem) equal⟩
      rw [← same]
      exact find?_key_eq_some nodup mem

/-! ### Trees of a formula -/

lemma keys_setNamed (k : String) (e : CallExpr) (es : List (String × CallExpr)) :
    (setNamed k e es).map Prod.fst =
      if k ∈ es.map Prod.fst then es.map Prod.fst else es.map Prod.fst ++ [k] := by
  induction es with
  | nil => simp [setNamed]
  | cons p es ih =>
    obtain ⟨k', e'⟩ := p
    by_cases equal : k = k'
    · simp [setNamed, equal]
    · by_cases later : k ∈ es.map Prod.fst <;> simp_all [setNamed]

lemma mem_setNamed (mem : p ∈ setNamed k e es) : p.2 = e ∨ p ∈ es := by
  induction es with
  | nil =>
    obtain rfl : p = (k, e) := by simpa [setNamed] using mem
    exact .inl rfl
  | cons q es ih =>
    rw [setNamed] at mem
    split at mem
    · rcases mem_cons.mp mem with rfl | later
      · exact .inl rfl
      · exact .inr (mem_cons_of_mem _ later)
    · rcases mem_cons.mp mem with rfl | later
      · exact .inr mem_cons_self
      · exact (ih later).imp_right (mem_cons_of_mem _)

/-- Arguments read so far, with no keyword twice. -/
structure KeyedArguments (plain : List CallExpr) (named : List (String × CallExpr)) : Prop where
  plain : ∀ e ∈ plain, e.Keyed
  distinct : (named.map Prod.fst).Nodup
  named : ∀ p ∈ named, p.2.Keyed

lemma KeyedArguments.setNamed (keyed : KeyedArguments plain named) (k : String) (new : e.Keyed) :
    KeyedArguments plain (setNamed k e named) where
  plain := keyed.plain
  distinct := by
    rw [keys_setNamed]
    split
    · exact keyed.distinct
    next absent => exact keyed.distinct.append (by simp) (by simpa using absent)
  named p mem := by
    rcases mem_setNamed mem with equal | old
    · exact equal ▸ new
    · exact keyed.named p old

lemma KeyedArguments.append (keyed : KeyedArguments plain named) (new : e.Keyed) :
    KeyedArguments (plain ++ [e]) named where
  plain := forall_mem_append.mpr ⟨keyed.plain, by simpa using new⟩
  distinct := keyed.distinct
  named := keyed.named

end CallExpr

/-!
### Equality of parts

Components, terms and group-specific terms of a formula: if one is found equal to another, so is the
other to it.
-/

/-! ### Components and terms -/

/-- What a formula can put into a term: a variable, or a call without a repeated keyword. -/
def Atom.Written : Atom → Prop
  | .variable _ _ => True
  | .call e => e.Keyed
  | .stray _ => False

variable {kinds : Component.Kinds}

lemma Component.same_symm {a b : Component} (written : a.atom.Written)
    (eq : a.same kinds b = .ok true) : b.same kinds a = .ok true := by
  obtain ⟨slot, atom⟩ := a
  obtain ⟨slot', atom'⟩ := b
  cases atom with
  | «variable» n r =>
    cases atom' with
    | «variable» n' r' =>
      simp only [Component.same] at eq ⊢
      rw [Literal.beq_comm n' n, optionLiteral_beq_comm r' r, BEq.comm (a := kinds slot')]
      exact eq
    | call | stray => simp [Component.same] at eq
  | call e =>
    cases atom' with
    | call d => exact CallExpr.same_symm written eq
    | «variable» | stray => simp [Component.same] at eq
  | stray => exact written.elim

lemma sameListM_eq_true_iff {α : Type} (same : α → α → Except Fault Bool) (xs ys : List α) :
    sameListM same xs ys = .ok true ↔ List.Forall₂ (fun x y => same x y = .ok true) xs ys := by
  rw [sameListM]
  by_cases long : xs.length = ys.length
  case neg =>
    have apart : ¬ List.Forall₂ (fun x y => same x y = .ok true) xs ys :=
      fun all => long all.length_eq
    simp [long, apart]
  simp only [long, bne_self_eq_false, Bool.false_eq_true, if_false]
  induction xs generalizing ys with
  | nil =>
    obtain rfl := List.length_eq_zero_iff.mp long.symm
    simp [sameListM.go]
  | cons x xs ih =>
    cases ys with
    | nil => simp at long
    | cons y ys => simp [sameListM.go, andThen_eq_true, ih ys (Nat.succ.inj long)]

lemma Term.same_eq_true_iff {t u : Term} : t.same kinds u = .ok true ↔
    List.Forall₂ (fun c d => c.same kinds d = .ok true) t.components u.components :=
  sameListM_eq_true_iff _ _ _

/-- All components of the effect have the property. -/
def Effect.All (P : Atom → Prop) (e : Effect) : Prop := ∀ c ∈ e.held, P c.atom

lemma Effect.same_symm {a b : Effect} (written : a.All Atom.Written)
    (eq : a.same kinds b = .ok true) : b.same kinds a = .ok true := by
  cases a with
  | intercept | negated => cases b <;> simp_all [Effect.same]
  | term t =>
    cases b with
    | term u =>
      refine Term.same_eq_true_iff.mpr (forall₂_flip (Term.same_eq_true_iff.mp eq) ?_)
      intro c mem d eq
      exact Component.same_symm (written c mem) eq
    | intercept | negated => simp [Effect.same] at eq

def GroupTerm.All (P : Atom → Prop) (g : GroupTerm) : Prop := g.expr.All P ∧ g.factor.All P

lemma GroupTerm.same_eq_true_iff {a b : GroupTerm} : a.same kinds b = .ok true ↔
    a.expr.same kinds b.expr = .ok true ∧ a.factor.same kinds b.factor = .ok true := by
  simp [GroupTerm.same, andThen_eq_true]

lemma GroupTerm.same_symm {a b : GroupTerm} (written : a.All Atom.Written)
    (eq : a.same kinds b = .ok true) : b.same kinds a = .ok true := by
  obtain ⟨exprs, factors⟩ := GroupTerm.same_eq_true_iff.mp eq
  apply GroupTerm.same_eq_true_iff.mpr
  exact ⟨Effect.same_symm written.1 exprs, Effect.same_symm written.2 factors⟩

end ModelFormula
