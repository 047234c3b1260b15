import ModelFormula.Proofs.Calls.FormulaCalls

/-!
# Comparing calls

The comparison of two trees has no answer exactly if the step at which it stops has a call on the
left and something else on the right.
-/
namespace ModelFormula

open List

namespace CallExpr

/-- The comparison gets to a call on the left that has something else in its place on the right. Up to
that place both trees are alike; a sign and an operation of the same symbol differ only behind their
first operand. -/
inductive Clash : CallExpr → CallExpr → Prop
  | here {f : String} {args : List CallExpr} {named : List (String × CallExpr)} {d : CallExpr}
      (other : ∀ f' args' named', d ≠ call f' args' named') : Clash (call f args named) d
  | unary {sign : Sign} {e d : CallExpr} (inner : Clash e d) : Clash (unary sign e) (unary sign d)
  | left {op : Operator} {l r l' r' : CallExpr} (inner : Clash l l') :
      Clash (binary op l r) (binary op l' r')
  | right {op : Operator} {l r l' r' : CallExpr} (left : same l l' = .ok true)
      (inner : Clash r r') : Clash (binary op l r) (binary op l' r')
  | signOperation {sign : Sign} {op : Operator} {e l r : CallExpr} (symbol : sign.symbol = op.symbol)
      (inner : Clash e l) : Clash (unary sign e) (binary op l r)
  | operationSign {sign : Sign} {op : Operator} {e l r : CallExpr} (symbol : sign.symbol = op.symbol)
      (inner : Clash l e) : Clash (binary op l r) (unary sign e)
  | argument {f : String} {before after before' after' : List CallExpr} {e d : CallExpr}
      {named named' : List (String × CallExpr)} (alike : SameAll before before')
      (long : after.length = after'.length) (inner : Clash e d) :
      Clash (call f (before ++ e :: after) named) (call f (before' ++ d :: after') named')
  | keyword {f : String} {args args' : List CallExpr} {before after named' : List (String × CallExpr)}
      {p q : String × CallExpr} (alike : SameAll args args')
      (count : (before ++ p :: after).length = named'.length) (alikeNamed : SameNamed before named')
      (found : named'.find? (·.1 == p.1) = some q) (inner : Clash p.2 q.2) :
      Clash (call f args (before ++ p :: after)) (call f args' named')

/-! ### When a comparison has no answer -/

lemma sameList_eq_error_iff (long : es.length = ds.length) : sameList es ds = .error fault ↔
      ∃ before e after before' d after', es = before ++ e :: after ∧ ds = before' ++ d :: after' ∧
        SameAll before before' ∧ same e d = .error fault := by
  -- the comparison stops at the first pair that has no answer, all pairs before it being equal
  induction es generalizing ds with
  | nil =>
    obtain rfl := length_eq_zero_iff.mp long.symm
    simp [sameList]
  | cons e es ih =>
    cases ds with
    | nil => simp at long
    | cons d ds =>
      simp only [sameList, Bool.not_eq_true', andThen_eq_error, ih (Nat.succ.inj long)]
      constructor
      · rintro (first | ⟨first, before, x, after, before', y, after', rfl, rfl, alike, at'⟩)
        · exact ⟨[], e, es, [], d, ds, rfl, rfl, .nil, first⟩
        · exact ⟨e :: before, x, after, d :: before', y, after', rfl, rfl, .cons first alike, at'⟩
      · rintro ⟨before, x, after, before', y, after', split, split', alike, failed⟩
        cases alike with
        | nil =>
          cases split
          cases split'
          exact .inl failed
        | cons first alike =>
          cases split
          cases split'
          exact .inr ⟨first, _, x, after, _, y, after', rfl, rfl, alike, failed⟩

lemma sameNamed_eq_error_iff : sameNamed es ds = .error fault ↔
      ∃ before p after q, es = before ++ p :: after ∧ SameNamed before ds ∧
        ds.find? (·.1 == p.1) = some q ∧ same p.2 q.2 = .error fault := by
  induction es with
  | nil => simp [sameNamed]
  | cons p es ih =>
    rw [sameNamed]
    constructor
    · intro failed
      cases found : ds.find? (·.1 == p.1) with
      | none =>
        rw [found] at failed
        cases failed
      | some q =>
        simp only [found, Bool.not_eq_true', andThen_eq_error, ih] at failed
        rcases failed with first | ⟨first, before, p', after, q', rfl, alike, found', at'⟩
        · exact ⟨[], p, es, q, rfl, by simp [SameNamed], found, first⟩
        · refine ⟨p :: before, p', after, q', rfl, ?_, found', at'⟩
          exact forall_mem_cons.mpr ⟨⟨q, found, first⟩, alike⟩
    · rintro ⟨before, p', after, q, split, alike, found, failed⟩
      cases before with
      | nil =>
        cases split
        simp only [found, Bool.not_eq_true', andThen_eq_error]
        exact .inl failed
      | cons p'' before =>
        cases split
        obtain ⟨⟨q', found', first⟩, alike⟩ := forall_mem_cons.mp alike
        simp only [found', Bool.not_eq_true', andThen_eq_error, ih]
        exact .inr ⟨first, before, p', after, q, rfl, alike, found, failed⟩

/-- Two calls are compared by callee, arguments in order and keywords by name, and a fault among them
is one that is met before any difference. -/
lemma same_call_eq_error_iff : same (call f args named) (call f' args' named') = .error fault ↔
      f = f' ∧ args.length = args'.length ∧ (sameList args args' = .error fault ∨
          SameAll args args' ∧ named.length = named'.length ∧
            sameNamed named named' = .error fault) := by
  rw [same]
  by_cases callee : f = f'
  case neg => simp [callee]
  by_cases long : args.length = args'.length
  case neg => simp [callee, long]
  have never : (pure false : Except Fault Bool) ≠ .error fault := by rintro ⟨⟩
  simp [callee, long, andThen_eq_error, ite_eq_iff, never, sameList_iff long]

/-- The only fault is a missing attribute, and it comes from a clash. -/
lemma clash_of_error (failed : same a b = .error fault) : fault = .noAttribute ∧ Clash a b := by
  induction a generalizing b with
  | unary sign e ih =>
    cases b with
    | unary sign' d =>
      obtain ⟨rfl, inner⟩ : sign = sign' ∧ same e d = .error fault := by
        simpa [same, ite_eq_iff] using failed
      exact (ih inner).imp id .unary
    | binary op l r =>
      -- a sign and an operation compare their first operands before they count them
      obtain ⟨symbols, first⟩ : sign.symbol = op.symbol ∧ same e l = .error fault := by
        simpa [same, ite_eq_iff, bind_eq_error, pure_ok] using failed
      exact (ih first).imp id (.signOperation symbols)
    | name | value | call => simp [same] at failed
  | binary op l r ihl ihr =>
    cases b with
    | binary op' l' r' =>
      obtain ⟨rfl, first | ⟨first, second⟩⟩ : op = op' ∧
          (same l l' = .error fault ∨ same l l' = .ok true ∧ same r r' = .error fault) := by
        simpa [same, ite_eq_iff, andThen_eq_error] using failed
      · exact (ihl first).imp id .left
      · exact (ihr second).imp id (.right first)
    | unary sign d =>
      obtain ⟨symbols, first⟩ : sign.symbol = op.symbol ∧ same l d = .error fault := by
        simpa [same, ite_eq_iff, bind_eq_error, pure_ok] using failed
      exact (ihl first).imp id (.operationSign symbols)
    | name | value | call => simp [same] at failed
  | name s | value v x => cases b <;> simp [same] at failed
  | call f args named ihArgs ihNamed =>
    cases b with
    | call f' args' named' =>
      obtain ⟨rfl, long, inArgs | ⟨alike, count, inNamed⟩⟩ := same_call_eq_error_iff.mp failed
      · obtain ⟨before, e, after, before', d, after', rfl, rfl, alike, at'⟩ :=
          (sameList_eq_error_iff long).mp inArgs
        have rest : after.length = after'.length := by
          have fronts := alike.length_eq
          simp only [length_append, length_cons] at long
          omega
        exact (ihArgs e (by simp) at').imp id (.argument alike rest)
      · obtain ⟨before, p, after, q, rfl, alikeNamed, found, at'⟩ := sameNamed_eq_error_iff.mp inNamed
        exact (ihNamed p (by simp) at').imp id (.keyword alike count alikeNamed found)
    | unary | binary | name | value =>
      cases failed
      exact ⟨rfl, .here (by simp)⟩

lemma error_of_clash (clash : Clash a b) : same a b = .error .noAttribute := by
  induction clash with
  | @here f args named d other =>
    -- what is no call has no callee to compare with
    cases d with
    | call f' args' named' => exact absurd rfl (other f' args' named')
    | unary | binary | name | value => rfl
  | unary _ ih => rw [same, if_pos (beq_self_eq_true _), ih]
  | left _ ih =>
    rw [same, if_pos (beq_self_eq_true _), ih]
    rfl
  | right first _ ih =>
    rw [same, if_pos (beq_self_eq_true _), first]
    exact ih
  | signOperation symbol _ ih | operationSign symbol _ ih =>
    rw [same, if_pos (by rw [symbol]; exact beq_self_eq_true _), ih]
    rfl
  | argument alike rest _ ih =>
    have long := alike.length_eq
    refine same_call_eq_error_iff.mpr ⟨rfl, by simp [long, rest], .inl ?_⟩
    exact (sameList_eq_error_iff (by simp [long, rest])).mpr ⟨_, _, _, _, _, _, rfl, rfl, alike, ih⟩
  | keyword alike count alikeNamed found _ ih =>
    refine same_call_eq_error_iff.mpr ⟨rfl, alike.length_eq, .inr ⟨alike, count, ?_⟩⟩
    exact sameNamed_eq_error_iff.mpr ⟨_, _, _, _, rfl, alikeNamed, found, ih⟩

lemma same_returns_iff (a b : CallExpr) : (∃ eq, same a b = .ok eq) ↔ ¬ Clash a b := by
  constructor
  · rintro ⟨eq, returned⟩ clash
    rw [error_of_clash clash] at returned
    cases returned
  · intro apart
    cases result : same a b with
    | ok eq => exact ⟨eq, rfl⟩
    | error fault => exact absurd (clash_of_error result).2 apart

/-! ### Equality with itself -/

lemma same_refl (keyed : a.Keyed) (values : ∀ v ∈ a.values, (v == v)) : same a a = .ok true := by
  induction a with
  | unary sign e ih => simpa [same] using ih keyed values
  | binary op l r ihl ihr =>
    obtain ⟨left, right⟩ := forall_mem_append.mp values
    simp [same, ihl keyed.1 left, ihr keyed.2 right, ok_bind]
  | name s => simp [same]
  | value v x => simpa [same] using values v (by simp [CallExpr.values])
  | call f args named ihArgs ihNamed =>
    obtain ⟨keyedArgs, nodup, keyedNamed⟩ := keyed
    obtain ⟨inArgs, inNamed⟩ := forall_mem_append.mp values
    refine same_call_iff.mpr ⟨args, named, rfl, ?_, rfl, ?_⟩
    · refine forall₂_same.mpr fun e mem => ?_
      exact ihArgs e mem ((keyedAll_iff args).mp keyedArgs e mem)
        fun v own => inArgs v (mem_valuesAll.mpr ⟨e, mem, own⟩)
    · -- a keyword that is given once leads to itself
      intro p mem
      refine ⟨p, find?_key_eq_some nodup mem, ?_⟩
      exact ihNamed p mem ((keyedNamed_iff named).mp keyedNamed p mem)
        fun v own => inNamed v (mem_valuesNamed.mpr ⟨p, mem, own⟩)

end CallExpr

/-! ### Tests for membership -/

/-- A result, or a missing attribute in the given case. -/
def ReturnsUnless {α : Type} (exception : Prop) (x : Except Fault α) : Prop :=
  (∃ a, x = .ok a) ∨ x = .error .noAttribute ∧ exception

namespace ReturnsUnless

variable {α β : Type}

lemma ok (a : α) : ReturnsUnless P (.ok a) := .inl ⟨a, rfl⟩

lemma mono {x : Except Fault α} (returns : ReturnsUnless P x) (weaker : P → Q) :
    ReturnsUnless Q x :=
  returns.imp_right (And.imp_right weaker)

lemma bind {x : Except Fault α} {f : α → Except Fault β} (first : ReturnsUnless P x)
    (second : ∀ a, ReturnsUnless P (f a)) : ReturnsUnless P (x >>= f) := by
  obtain ⟨a, rfl⟩ | ⟨rfl, exception⟩ := first
  · exact second a
  · exact .inr ⟨rfl, exception⟩

lemma anyM {test : α → Except Fault Bool} {xs : List α}
    (each : ∀ x ∈ xs, ReturnsUnless P (test x)) : ReturnsUnless P (anyM test xs) := by
  induction xs with
  | nil => exact ok false
  | cons x xs ih =>
    obtain ⟨first, others⟩ := forall_mem_cons.mp each
    refine first.bind fun found => ?_
    cases found with
    | true => exact ok true
    | false => exact ih others

lemma sameListM {same : α → α → Except Fault Bool} {xs ys : List α}
    (each : ∀ x ∈ xs, ∀ y ∈ ys, ReturnsUnless P (same x y)) :
    ReturnsUnless P (sameListM same xs ys) := by
  rw [ModelFormula.sameListM]
  split
  · exact ok false
  -- the lengths are equal, but the loop does not depend on it
  clear * - each
  induction xs generalizing ys with
  | nil => exact ok true
  | cons x xs ih =>
    cases ys with
    | nil => exact ok true
    | cons y ys =>
      refine (each x (by simp) y (by simp)).bind fun eq => ?_
      cases eq with
      | false => exact ok false
      | true => exact ih fun u left v right => each u (by simp [left]) v (by simp [right])

end ReturnsUnless

/-- Both are calls, and comparing the first with the second has no answer. -/
def Component.Clash (c d : Component) : Prop :=
  ∃ a b, c.atom = .call a ∧ d.atom = .call b ∧ CallExpr.Clash a b

/-- Some component of the first list clashes with one of the second. -/
def ClashAmong (cs ds : List Component) : Prop := ∃ c ∈ cs, ∃ d ∈ ds, c.Clash d

section Membership

variable (kinds : Component.Kinds)

lemma Component.same_returns (c d : Component) : ReturnsUnless (c.Clash d) (c.same kinds d) := by
  obtain ⟨slot, atom⟩ := c
  obtain ⟨slot', atom'⟩ := d
  cases atom with
  | call a =>
    cases atom' with
    | call b =>
      show ReturnsUnless _ (CallExpr.same a b)
      cases result : CallExpr.same a b with
      | ok eq => exact .ok eq
      | error fault =>
        obtain ⟨rfl, clash⟩ := CallExpr.clash_of_error result
        exact .inr ⟨rfl, a, b, rfl, rfl, clash⟩
    -- components test what the other one is before they compare
    | «variable» | stray => exact .ok false
  | «variable» | stray => cases atom' <;> exact .ok _

lemma Effect.same_returns (a b : Effect) :
    ReturnsUnless (ClashAmong a.held b.held) (a.same kinds b) := by
  cases a with
  | term t =>
    cases b with
    | term u =>
      apply ReturnsUnless.sameListM
      intro c left d right
      exact (Component.same_returns kinds c d).mono fun clash => ⟨c, left, d, right, clash⟩
    | intercept | negated => exact .ok false
  | intercept | negated => cases b <;> exact .ok _

lemma GroupTerm.same_returns (g h : GroupTerm) :
    ReturnsUnless (ClashAmong g.held h.held) (g.same kinds h) := by
  refine ((Effect.same_returns kinds g.expr h.expr).mono ?_).bind fun eq => ?_
  · rintro ⟨c, left, d, right, clash⟩
    exact ⟨c, mem_append_left _ left, d, mem_append_left _ right, clash⟩
  · cases eq with
    | false => exact .ok false
    | true =>
      refine (Effect.same_returns kinds g.factor h.factor).mono ?_
      rintro ⟨c, left, d, right, clash⟩
      exact ⟨c, mem_append_right _ left, d, mem_append_right _ right, clash⟩

/-- One step of collecting components compares a component with those that are kept already. -/
lemma Term.distinct_returns (cs : List Component) :
    ReturnsUnless (ClashAmong cs cs) (Term.distinct kinds cs) := by
  -- what is kept was given, so a clash with it is one among the given
  have run : ∀ (ds kept : List Component), ds ⊆ cs → kept ⊆ cs →
      ReturnsUnless (ClashAmong cs cs) (ds.foldlM (fun kept c => do
        if ← ModelFormula.anyM (Component.same kinds · c) kept then return kept
        return kept ++ [c]) kept) := by
    intro ds
    induction ds with
    | nil => exact fun kept _ _ => .ok kept
    | cons c ds ih =>
      intro kept given inside
      obtain ⟨own, given⟩ := cons_subset.mp given
      rw [foldlM_cons]
      have test : ReturnsUnless (ClashAmong cs cs) (ModelFormula.anyM (Component.same kinds · c) kept) :=
        .anyM fun k mem => (Component.same_returns kinds k c).mono fun clash =>
          ⟨k, inside mem, c, own, clash⟩
      obtain ⟨found, returned⟩ | ⟨failed, clash⟩ := test
      · rw [returned]
        cases found with
        | true => exact ih kept given inside
        | false => exact ih (kept ++ [c]) given (append_subset.mpr ⟨inside, by simpa using own⟩)
      · rw [failed]
        exact .inr ⟨rfl, clash⟩
  exact run cs [] (Subset.refl cs) (nil_subset cs)

lemma Model.add_effect_returns (m : Model) (pos : e ≠ .negated) :
    ReturnsUnless (∃ e' ∈ m.common, ClashAmong e'.held e.held) (m.add kinds (.effect e)) := by
  have test : ReturnsUnless (∃ e' ∈ m.common, ClashAmong e'.held e.held)
      (anyM (Effect.same kinds · e) m.common) :=
    .anyM fun e' mem => (Effect.same_returns kinds e' e).mono fun clash => ⟨e', mem, clash⟩
  cases e with
  | negated => exact absurd rfl pos
  | intercept | term =>
    refine test.bind fun found => ?_
    cases found <;> exact .ok _

lemma Model.add_group_returns (m : Model) (g : GroupTerm) :
    ReturnsUnless (∃ h ∈ m.group, ClashAmong h.held g.held) (m.add kinds (.group g)) := by
  have test : ReturnsUnless (∃ h ∈ m.group, ClashAmong h.held g.held)
      (anyM (GroupTerm.same kinds · g) m.group) :=
    .anyM fun h mem => (GroupTerm.same_returns kinds h g).mono fun clash => ⟨h, mem, clash⟩
  refine test.bind fun found => ?_
  cases found <;> exact .ok _

end Membership

namespace CallExpr

/-- A call of a formula is compared with any other: there is an answer exactly if the two do not
clash, and otherwise a missing attribute. The call equals itself, and a positive answer is symmetric and
carries over. Collecting the components of a term and adding a part to a model return unless two calls
clash that are compared there. -/
theorem same_equality {a b c : CallExpr} (produced : OfFormula a) :
    ((∃ equal, same a b = .ok equal) ↔ ¬ Clash a b) ∧
    (Clash a b → same a b = .error .noAttribute) ∧
    same a a = .ok true ∧
    (same a b = .ok true → same b a = .ok true) ∧
    (same a b = .ok true → same b c = .ok true → same a c = .ok true) ∧
    (∀ kinds cs, ReturnsUnless (ClashAmong cs cs) (Term.distinct kinds cs)) ∧
    (∀ kinds (m : Model) e, e ≠ .negated →
      ReturnsUnless (∃ e' ∈ m.common, ClashAmong e'.held e.held) (m.add kinds (.effect e))) ∧
    ∀ kinds (m : Model) g,
      ReturnsUnless (∃ h ∈ m.group, ClashAmong h.held g.held) (m.add kinds (.group g)) :=
  ⟨same_returns_iff a b, error_of_clash, same_refl produced.keyed produced.values_self,
    same_symm produced.keyed, same_trans, Term.distinct_returns,
    fun kinds m _ positive => m.add_effect_returns kinds positive,
    fun kinds m g => m.add_group_returns kinds g⟩

/-- Keywords may come in another order, and `1` equals `1.0`. -/
theorem same_equality_keywords :
    let a := call "f" [] [("k", value (.int 1) none), ("m", name "y")]
    let b := call "f" [] [("m", name "y"), ("k", value (.float 1.0) none)]
    OfFormula a ∧ ¬ Clash a b ∧ same a b = .ok true ∧ same b a = .ok true ∧ same a a = .ok true := by
  intro a b
  have produced : OfFormula a := @OfFormula.of_read "f(k=1,m=y)" a (by cbv)
  have equal : same a b = .ok true := by decide +kernel
  obtain ⟨returns, _, self, symm, _⟩ := @same_equality a b a produced
  exact ⟨produced, returns.mp ⟨true, equal⟩, equal, symm equal, self⟩

/-- `f(g(x))` cannot be compared with `f(x)`, and the sum of the two is no model. -/
theorem same_of_nested_call :
    let nested := call "f" [call "g" [name "x"] []] []
    let flat := call "f" [name "x"] []
    let var := fun s : String => Expr.name ⟨.identifier, s, none⟩
    let sum := Expr.binary (.call (var "f") [.call (var "g") [var "x"]]) Token.plusSign
      (.call (var "f") [var "x"])
    OfFormula nested ∧ OfFormula flat ∧ same nested flat = .error .noAttribute ∧
      same flat nested = .ok false ∧ (outcome (Operand.ofExpr sum) {}).1 = .error .noAttribute := by
  intro nested flat var sum
  have first : OfFormula nested := @OfFormula.of_read "f(g(x))" nested (by cbv)
  have second : OfFormula flat := @OfFormula.of_read "f(x)" flat (by cbv)
  exact ⟨first, second, rfl, rfl, by cbv⟩

end CallExpr

end ModelFormula
