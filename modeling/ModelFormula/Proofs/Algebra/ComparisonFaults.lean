import ModelFormula.Proofs.Algebra.Origins
import ModelFormula.Proofs.Calls.CallComparison
import ModelFormula.Proofs.Calls.CallKeys
import ModelFormula.Proofs.Parsing.Scans

/-!
# Calls that cannot be read

A tree cannot be read as a call where it has an operation that calls do not know, which is a fault
of calls, or an assignment that is no argument or a callee without a name, which are asked for what
they have not.
-/
namespace ModelFormula.CallExpr

open List

/-! ### Arguments -/

/-- The tree of an argument; behind a keyword it is that of the value. -/
def argumentTree : Expr → Expr
  | .assign _ v => v
  | arg => arg

def keywordOf : Expr → Except Fault (Option String)
  | .assign target _ => (nameOf target).map some
  | _ => .ok none

/-- One argument: its keyword, if it has one, and what its tree is read as. -/
def readArgument (arg : Expr) : Except Fault (Option String × CallExpr) := do
  let e ← ofExpr (argumentTree arg)
  return (← keywordOf arg, e)

/-- Puts an argument behind those by place or among those by keyword. -/
def withArgument (given : List CallExpr × List (String × CallExpr)) :
    Option String × CallExpr → List CallExpr × List (String × CallExpr)
  | (some k, e) => (given.1, setNamed k e given.2)
  | (none, e) => (given.1 ++ [e], given.2)

lemma ofArguments_cons (arg : Expr) (rest : List Expr) (plain : List CallExpr)
    (named : List (String × CallExpr)) : ofArguments (arg :: rest) plain named =
      readArgument arg >>= fun p =>
        ofArguments rest (withArgument (plain, named) p).1 (withArgument (plain, named) p).2 := by
  have byPlace (unassigned : ∀ target v, arg ≠ .assign target v)
      (single : readArgument arg = ofExpr arg >>= fun e => .ok (none, e)) :
      ofArguments (arg :: rest) plain named = readArgument arg >>= fun p =>
        ofArguments rest (withArgument (plain, named) p).1 (withArgument (plain, named) p).2 := by
    rw [ofArguments.eq_3 plain named arg rest unassigned, single]
    cases ofExpr arg <;> rfl
  cases arg with
  | assign target v =>
    rw [ofArguments, readArgument, argumentTree, keywordOf]
    cases ofExpr v with
    | error found => rfl
    | ok c => cases nameOf target <;> rfl
  | _ => exact byPlace (by simp) rfl

variable {fault : Fault}

lemma ofArguments_eq_error_iff : ofArguments args plain named = .error fault ↔
      ∃ before arg after, args = before ++ arg :: after ∧
        (∀ b ∈ before, ∃ p, readArgument b = .ok p) ∧ readArgument arg = .error fault := by
  induction args generalizing plain named with
  | nil => simp [ofArguments]
  | cons arg args ih =>
    rw [ofArguments_cons, bind_eq_error]
    constructor
    · rintro (failed | ⟨p, first, failed⟩)
      · exact ⟨[], arg, args, rfl, by simp, failed⟩
      · obtain ⟨before, other, after, rfl, earlier, failed⟩ := ih.mp failed
        exact ⟨arg :: before, other, after, rfl, forall_mem_cons.mpr ⟨⟨p, first⟩, earlier⟩, failed⟩
    · rintro ⟨before, other, after, shape, earlier, failed⟩
      cases before with
      | nil =>
        cases shape
        exact .inl failed
      | cons b before =>
        cases shape
        obtain ⟨⟨p, first⟩, earlier⟩ := forall_mem_cons.mp earlier
        exact .inr ⟨p, first, ih.mpr ⟨before, other, after, rfl, earlier, failed⟩⟩

lemma ofArguments_eq_ok_iff : (∃ given, ofArguments args plain named = .ok given) ↔
      ∀ a ∈ args, ∃ p, readArgument a = .ok p := by
  induction args generalizing plain named with
  | nil => simp [ofArguments]
  | cons arg args ih =>
    rw [ofArguments_cons, forall_mem_cons]
    cases readArgument arg with
    | error found => simp [bind, Except.bind]
    | ok p =>
      have first : ∃ q, (Except.ok p : Except Fault _) = .ok q := ⟨p, rfl⟩
      exact ih.trans (iff_and_self.mpr fun _ => first)

/-! ### Trees -/

/-- Reading the first tree comes to the second: all that is read before it can be read. -/
inductive Comes : Expr → Expr → Prop
  | refl (e : Expr) : Comes e e
  | grouping {e d : Expr} (more : Comes e d) : Comes (.grouping e) d
  | unary {o : Token} {sign : Sign} {e d : Expr} (isSign : sign? o.kind = some sign)
      (more : Comes e d) : Comes (.unary o e) d
  | left {o : Token} {op : Operator} {l r d : Expr} (operator : operator? o.kind = some op)
      (more : Comes l d) : Comes (.binary l o r) d
  | right {o : Token} {op : Operator} {l r d : Expr} {c : CallExpr}
      (operator : operator? o.kind = some op) (first : ofExpr l = .ok c) (more : Comes r d) :
      Comes (.binary l o r) d
  | argument {f arg d : Expr} {before after : List Expr}
      (earlier : ∀ b ∈ before, ∃ p, readArgument b = .ok p) (more : Comes (argumentTree arg) d) :
      Comes (.call f (before ++ arg :: after)) d

/-- The tree is asked for a name or a value that it has not. -/
inductive Nameless : Expr → Prop
  | assignment (target v : Expr) : Nameless (.assign target v)
  | callee {f : Expr} {args : List Expr} (arguments : ∀ a ∈ args, ∃ p, readArgument a = .ok p)
      (other : nameOf f = .error .noAttribute) : Nameless (.call f args)
  | keyword {f arg : Expr} {before after : List Expr} {c : CallExpr}
      (earlier : ∀ b ∈ before, ∃ p, readArgument b = .ok p) (value : ofExpr (argumentTree arg) = .ok c)
      (other : keywordOf arg = .error .noAttribute) : Nameless (.call f (before ++ arg :: after))

lemma nameOf_fault (failed : nameOf e = .error fault) : fault = .noAttribute := by
  cases e <;> cases failed <;> rfl

lemma keywordOf_fault (failed : keywordOf arg = .error fault) : fault = .noAttribute := by
  cases arg with
  | assign target v =>
    rw [keywordOf] at failed
    cases named : nameOf target with
    | error found =>
      rw [named] at failed
      cases failed
      exact nameOf_fault named
    | ok k =>
      rw [named] at failed
      cases failed
  | _ => cases failed

lemma sizeOf_argumentTree_le (arg : Expr) : sizeOf (argumentTree arg) ≤ sizeOf arg := by
  cases arg with
  | assign target v =>
    rw [argumentTree, Expr.assign.sizeOf_spec]
    omega
  | _ => exact Nat.le_refl _

/-- A tree that cannot be read has an operator that calls do not know, or is asked for what it has
not. -/
lemma comes_of_error : ∀ e : Expr, ofExpr e = .error fault →
    fault.category = .call ∨ fault = .noAttribute ∧ ∃ d, Comes e d ∧ Nameless d
  | .grouping e, failed => by
    rw [ofExpr] at failed
    exact (comes_of_error e failed).imp_right fun ⟨own, d, comes, nameless⟩ =>
      ⟨own, d, .grouping comes, nameless⟩
  | .binary l o r, failed => by
    rw [ofExpr] at failed
    cases operator : operator? o.kind with
    | none =>
      rw [operator] at failed
      cases failed
      exact .inl rfl
    | some op =>
      rw [operator] at failed
      rcases bind_eq_error.mp failed with failed | ⟨c, first, failed⟩
      · exact (comes_of_error l failed).imp_right fun ⟨own, d, comes, nameless⟩ =>
          ⟨own, d, .left operator comes, nameless⟩
      · rcases bind_eq_error.mp failed with failed | ⟨_, _, failed⟩
        · exact (comes_of_error r failed).imp_right fun ⟨own, d, comes, nameless⟩ =>
            ⟨own, d, .right operator first comes, nameless⟩
        · cases failed
  | .unary o e, failed => by
    rw [ofExpr] at failed
    cases isSign : sign? o.kind with
    | none =>
      rw [isSign] at failed
      cases failed
      exact .inl rfl
    | some sign =>
      rw [isSign] at failed
      rcases bind_eq_error.mp failed with failed | ⟨_, _, failed⟩
      · exact (comes_of_error e failed).imp_right fun ⟨own, d, comes, nameless⟩ =>
          ⟨own, d, .unary isSign comes, nameless⟩
      · cases failed
  | .call f args, failed => by
    rw [ofExpr] at failed
    rcases bind_eq_error.mp failed with failed | ⟨given, read, failed⟩
    · obtain ⟨before, arg, after, rfl, earlier, stops⟩ := ofArguments_eq_error_iff.mp failed
      rcases bind_eq_error.mp stops with failed | ⟨c, value, stops⟩
      · have smaller := sizeOf_argumentTree_le arg
        have mem : arg ∈ before ++ arg :: after := by simp
        have inside := sizeOf_lt_of_mem mem
        exact (comes_of_error (argumentTree arg) failed).imp_right fun ⟨own, d, comes, nameless⟩ =>
          ⟨own, d, .argument earlier comes, nameless⟩
      · rcases bind_eq_error.mp stops with failed | ⟨_, _, failed⟩
        · obtain rfl := keywordOf_fault failed
          exact .inr ⟨rfl, _, .refl _, .keyword earlier value failed⟩
        · cases failed
    · rcases bind_eq_error.mp failed with failed | ⟨_, _, failed⟩
      · obtain rfl := nameOf_fault failed
        exact .inr ⟨rfl, _, .refl _, .callee (ofArguments_eq_ok_iff.mp ⟨given, read⟩) failed⟩
      · cases failed
  | .assign target v, failed => by
    rw [ofExpr] at failed
    cases failed
    exact .inr ⟨rfl, _, .refl _, .assignment target v⟩
  | .name _, failed | .subset _ _, failed | .quotedName _, failed | .literal _ _, failed => by
    rw [ofExpr] at failed
    cases failed
termination_by e => sizeOf e

lemma ofExpr_call_of_stops {f arg : Expr} {before after : List Expr}
    (earlier : ∀ b ∈ before, ∃ p, readArgument b = .ok p) (stops : readArgument arg = .error fault) :
    ofExpr (.call f (before ++ arg :: after)) = .error fault := by
  rw [ofExpr, ofArguments_eq_error_iff.mpr ⟨before, arg, after, rfl, earlier, stops⟩]
  rfl

lemma error_of_comes {e d : Expr} (comes : Comes e d) (nameless : Nameless d) :
    ofExpr e = .error .noAttribute := by
  induction comes with
  | refl e =>
    cases nameless with
    | assignment => rw [ofExpr]
    | callee arguments other =>
      obtain ⟨given, read⟩ := ofArguments_eq_ok_iff.mpr arguments
      rw [ofExpr]
      exact bind_eq_error.mpr (.inr ⟨given, read, bind_eq_error.mpr (.inl other)⟩)
    | @keyword f arg before after c earlier value other =>
      have stops : readArgument arg = .error .noAttribute :=
        bind_eq_error.mpr (.inr ⟨c, value, bind_eq_error.mpr (.inl other)⟩)
      exact ofExpr_call_of_stops earlier stops
  | grouping _ ih =>
    rw [ofExpr]
    exact ih nameless
  | unary isSign _ ih =>
    rw [ofExpr, isSign]
    exact bind_eq_error.mpr (.inl (ih nameless))
  | left operator _ ih =>
    rw [ofExpr, operator]
    exact bind_eq_error.mpr (.inl (ih nameless))
  | right operator first _ ih =>
    rw [ofExpr, operator]
    exact bind_eq_error.mpr (.inr ⟨_, first, bind_eq_error.mpr (.inl (ih nameless))⟩)
  | @argument f arg d before after earlier _ ih =>
    exact ofExpr_call_of_stops earlier (bind_eq_error.mpr (.inl (ih nameless)))

end ModelFormula.CallExpr

/-!
### Which faults a comparison can stop with

Models are edited and compared part by part, so that this fails only where two calls clash, where a
negated intercept is added, or where something cannot be hashed.
-/
namespace ModelFormula

open List

open Component (unknown)

variable {α : Type} {x : Except Fault α}

/-! ### Comparisons -/

lemma ReturnsUnless.fault {C : Prop} {fault : Fault}
    (returns : ReturnsUnless C x) (failed : x = .error fault) : fault = .noAttribute ∧ C := by
  obtain ⟨a, rfl⟩ | ⟨rfl, exception⟩ := returns
  · cases failed
  · cases failed
    exact ⟨rfl, exception⟩

lemma ReturnsUnless.eraseM {test : α → Except Fault Bool} {xs : List α}
    (each : ∀ x ∈ xs, ReturnsUnless C (test x)) : ReturnsUnless C (eraseM test xs) := by
  induction xs with
  | nil => exact .ok []
  | cons x xs ih =>
    obtain ⟨first, others⟩ := forall_mem_cons.mp each
    refine first.bind fun found => ?_
    cases found with
    | true => exact .ok xs
    | false => exact (ih others).bind fun rest => .ok _

/-- Two calls with the property clash. -/
def Clashing (P : Atom → Prop) : Prop := ∃ a b, P (.call a) ∧ P (.call b) ∧ CallExpr.Clash a b

variable {P : Atom → Prop} {fault : Fault}

lemma ClashAmong.clashing (clash : ClashAmong cs ds) (left : ∀ c ∈ cs, P c.atom)
    (right : ∀ d ∈ ds, P d.atom) : Clashing P := by
  obtain ⟨c, own, d, other, a, b, first, second, clash⟩ := clash
  exact ⟨a, b, first ▸ left c own, second ▸ right d other, clash⟩

lemma Effect.same_unless {a b : Effect} (left : a.All P) (right : b.All P) :
    ReturnsUnless (Clashing P) (a.same unknown b) :=
  (Effect.same_returns unknown a b).mono fun clash => clash.clashing left right

lemma GroupTerm.All.held {g : GroupTerm} (all : g.All P) : ∀ c ∈ g.held, P c.atom :=
  forall_mem_append.mpr all

lemma GroupTerm.same_unless {g h : GroupTerm} (left : g.All P) (right : h.All P) :
    ReturnsUnless (Clashing P) (g.same unknown h) :=
  (GroupTerm.same_returns unknown g h).mono fun clash => clash.clashing left.held right.held

lemma Part.same_unless {x y : Part} (left : x.All P) (right : y.All P) :
    ReturnsUnless (Clashing P) (x.same unknown y) := by
  cases x with
  | effect a =>
    cases y with
    | effect b => exact Effect.same_unless left right
    | group h => exact .ok false
  | group g =>
    cases y with
    | effect b => exact .ok false
    | group h => exact GroupTerm.same_unless left right

namespace Model

/-! ### Edits -/

variable {m : Model}

lemma edit_unless {e : Edit} (own : m.All P) (part : e.part.All P)
    (pos : e ≠ .add (.effect .negated)) : ReturnsUnless (Clashing P) (m.edit unknown e) := by
  have effects {d : Effect} (all : d.All P) : ∀ c ∈ m.common,
      ReturnsUnless (Clashing P) (c.same unknown d) :=
    fun c mem => Effect.same_unless (own.common c mem) all
  have groups {h : GroupTerm} (all : h.All P) : ∀ g ∈ m.group,
      ReturnsUnless (Clashing P) (g.same unknown h) :=
    fun g mem => GroupTerm.same_unless (own.group g mem) all
  cases e with
  | add x =>
    cases x with
    | group g => exact (ReturnsUnless.anyM (groups part)).bind fun found => by cases found <;> exact .ok _
    | effect d =>
      cases d with
      | negated => exact (pos rfl).elim
      | intercept | term =>
        exact (ReturnsUnless.anyM (effects part)).bind fun found => by cases found <;> exact .ok _
  | remove x =>
    cases x with
    | group g => exact (ReturnsUnless.eraseM (groups part)).bind fun rest => .ok _
    | effect d => exact (ReturnsUnless.eraseM (effects part)).bind fun rest => .ok _

lemma edit_fault (own : m.All P) (part : e.part.All P) (failed : m.edit unknown e = .error fault) :
    (e = .add (.effect .negated) ∧ fault.category = .value) ∨ fault = .noAttribute ∧ Clashing P := by
  by_cases negative : e = .add (.effect .negated)
  · subst negative
    cases failed
    exact .inl ⟨rfl, rfl⟩
  · exact .inr ((edit_unless own part negative).fault failed)

lemma editAll_fault {edits : List Edit} (own : m.All P) (parts : ∀ e ∈ edits, e.part.All P)
    (failed : m.editAll unknown edits = .error fault) :
    (.add (.effect .negated) ∈ edits ∧ fault.category = .value) ∨
      fault = .noAttribute ∧ Clashing P := by
  induction edits generalizing m with
  | nil => cases failed
  | cons e edits ih =>
    obtain ⟨part, others⟩ := forall_mem_cons.mp parts
    rw [editAll, foldlM_cons] at failed
    rcases bind_eq_error.mp failed with failed | ⟨n, done, failed⟩
    · rcases edit_fault own part failed with ⟨rfl, value⟩ | clash
      · exact .inl ⟨mem_cons_self, value⟩
      · exact .inr clash
    · have next : n.All P := edit_all own (fun x added => by rw [added] at part; exact part) done
      exact (ih next others failed).imp_left fun found => ⟨mem_cons_of_mem _ found.1, found.2⟩

end Model

/-! ### Equality -/

/-- A result with the property, or such a fault. -/
def Within (x : Except Fault α) (R : Fault → Prop) (Q : α → Prop) : Prop :=
  match x with
  | .ok a => Q a
  | .error fault => R fault

namespace Within

variable {R : Fault → Prop} {Q : α → Prop}

lemma of_error (holds : Within x R Q) (failed : x = .error fault) : R fault := by
  subst failed
  exact holds

lemma bind {f : α → Except Fault β} {S : β → Prop} (first : Within x R Q)
    (second : ∀ a, Q a → Within (f a) R S) : Within (x >>= f) R S := by
  cases x with
  | error fault => exact first
  | ok a => exact second a first

lemma of_fault (each : ∀ fault, x = .error fault → R fault) : Within x R fun _ => True := by
  cases x with
  | error fault => exact each fault rfl
  | ok a => trivial

lemma foldlM {f : α → β → Except Fault α} {xs : List β} {a : α} (begins : Q a)
    (step : ∀ a, ∀ x ∈ xs, Q a → Within (f a x) R Q) : Within (xs.foldlM f a) R Q := by
  induction xs generalizing a with
  | nil => exact begins
  | cons x xs ih =>
    rw [foldlM_cons]
    apply (step a x mem_cons_self begins).bind
    intro b own
    exact ih own fun b y mem => step b y (mem_cons_of_mem _ mem)

lemma anyM {test : α → Except Fault Bool} {xs : List α}
    (each : ∀ x ∈ xs, Within (test x) R fun _ => True) :
    Within (ModelFormula.anyM test xs) R fun _ => True := by
  induction xs with
  | nil => trivial
  | cons x xs ih =>
    obtain ⟨first, others⟩ := forall_mem_cons.mp each
    apply first.bind
    intro found _
    cases found with
    | true => trivial
    | false => exact ih others

end Within

lemma mapM_fault {f : β → Except Fault α} {xs : List β} (failed : xs.mapM f = .error fault) :
    ∃ x ∈ xs, f x = .error fault := by
  induction xs with
  | nil => cases failed
  | cons x xs ih =>
    rw [mapM_cons] at failed
    rcases bind_eq_error.mp failed with first | ⟨_, _, failed⟩
    · exact ⟨x, mem_cons_self, first⟩
    rcases bind_eq_error.mp failed with others | ⟨_, _, failed⟩
    · obtain ⟨y, mem, own⟩ := ih others
      exact ⟨y, mem_cons_of_mem _ mem, own⟩
    · cases failed

lemma Component.key_fault {c : Component} (failed : c.key unknown = .error fault) :
    fault = .unsupported := by
  obtain ⟨slot, atom⟩ := c
  cases atom with
  | call e => exact CallExpr.unsupported_of_key_error failed
  | «variable» | stray => cases failed

lemma Effect.key_fault {e : Effect} (failed : e.key unknown = .error fault) :
    fault = .unsupported := by
  cases e with
  | intercept slot => cases failed
  | negated =>
    cases failed
    rfl
  | term t =>
    obtain ⟨c, _, own⟩ := mapM_fault (Token.error_of_map failed)
    exact c.key_fault own

lemma Part.key_fault {x : Part} (failed : x.key unknown = .error fault) : fault = .unsupported := by
  cases x with
  | effect e => exact e.key_fault failed
  | group g =>
    rcases bind_eq_error.mp failed with expr | ⟨_, _, failed⟩
    · exact g.expr.key_fault expr
    rcases bind_eq_error.mp failed with factor | ⟨_, _, failed⟩
    · exact g.factor.key_fault factor
    · cases failed

/-- What can stop a comparison of models: something without a hash, or a clash. -/
def Incomparable (P : Atom → Prop) (fault : Fault) : Prop :=
  fault = .unsupported ∨ fault = .noAttribute ∧ Clashing P

/-- Looking a part up among others with their keys. -/
lemma within_lookup {kept : List (HashKey × Part)} {key : HashKey} {x : Part}
    (known : ∀ p ∈ kept, p.2.All P) (own : x.All P) :
    Within (anyM (fun p : HashKey × Part => if p.1 == key then p.2.same unknown x else .ok false) kept)
      (Incomparable P) fun _ => True := by
  apply Within.anyM
  intro p mem
  split
  · have same : ReturnsUnless (Clashing P) (p.2.same unknown x) := Part.same_unless (known p mem) own
    exact .of_fault fun fault failed => .inr (same.fault failed)
  · trivial

lemma Model.within_partSet {m : Model} (own : m.All P) :
    Within (m.partSet unknown) (Incomparable P) fun kept => ∀ p ∈ kept, p.2.All P := by
  apply Within.foldlM (by simp)
  intro kept x mem known
  apply (Within.of_fault fun fault failed => .inl (x.key_fault failed)).bind
  intro key _
  apply (within_lookup known (own.parts x mem)).bind
  intro found _
  cases found with
  | true => exact known
  | false => exact forall_mem_append.mpr ⟨known, by simpa using own.parts x mem⟩

lemma Model.same_fault {m n : Model} (own : m.All P) (other : n.All P)
    (left : ∀ t ∈ m.response, (Effect.term t).All P) (right : ∀ t ∈ n.response, (Effect.term t).All P)
    (failed : m.same unknown n = .error fault) : Incomparable P fault := by
  have responses : ∀ t ∈ m.response, ∀ u ∈ n.response,
      ReturnsUnless (Clashing P) (t.same unknown u) :=
    fun t first u second => Effect.same_unless (left t first) (right u second)
  have compared : Within (m.same unknown n) (Incomparable P) fun _ => True := by
    apply (within_partSet own).bind
    intro as first
    apply (within_partSet other).bind
    intro bs second
    dsimp only
    split
    case' isTrue =>
      have missing : Within (.ok true : Except Fault Bool) (Incomparable P) fun _ => True := trivial
      apply missing.bind
    case' isFalse =>
      have missing : Within (anyM (fun p : HashKey × Part => do
          return !(← anyM (fun q : HashKey × Part =>
            if q.1 == p.1 then q.2.same unknown p.2 else .ok false) bs)) as)
          (Incomparable P) fun _ => True := by
        apply Within.anyM
        intro p mem
        apply (within_lookup second (first p mem)).bind
        intro found _
        trivial
      apply missing.bind
    all_goals
      -- it is known whether a part is missing, and the responses remain
      intro missing _
      split
      next t u own other =>
        apply (Within.of_fault fun fault failed => .inr ((responses t own u other).fault failed)).bind
        intro eq _
        trivial
      · trivial
      · trivial
  exact compared.of_error failed

end ModelFormula
