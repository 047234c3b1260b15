import ModelFormula.Proofs.Calls.Memories
import ModelFormula.Proofs.Numbers.PolynomialMemory

/-!
# Transforms that have seen their first column

After a first call that succeeds, a transform has all its parameters. From then on a call leaves the
memory as it is, whether it succeeds or not, and the first call gives the same value when it is made
again.
-/
namespace ModelFormula.Transform

open List Statistics Memory

/-! ### Arguments -/

/-- The argument for one parameter at a place. -/
def argumentAt (args : List Value) (named : List (String × Value)) :
    (String × Option Value) × Nat → Except Fault Value
  | ((name, default?), i) =>
    match args[i]?, named.find? (·.1 == name), default? with
    | some v, _, _ => .ok v
    | none, some (_, v), _ => .ok v
    | none, none, some v => .ok v
    | none, none, none => .error .unsupported

lemma arguments_ok (done : arguments parameters args named = .ok vs) :
    List.Forall₂ (fun p v => argumentAt args named p = .ok v) parameters.zipIdx vs := by
  unfold arguments at done
  by_cases many : parameters.length < args.length
  · rw [if_pos many] at done
    cases done
  · rw [if_neg many] at done
    dsimp only at done
    split at done
    · exact (mapM_ok_iff _ _ _).mp done
    · cases done

/-- Two lists of arguments whose members are related, as the parameters that they stand for ask. -/
structure Matching (R : String → Value → Value → Prop) (parameters : List (String × Option Value))
    (args args' : List Value) (named named' : List (String × Value)) : Prop where
  places : args.length = args'.length
  positional : ∀ (i : Nat) (p : String × Option Value) (v v' : Value), parameters[i]? = some p →
    args[i]? = some v → args'[i]? = some v' → R p.1 v v'
  keywords : List.Forall₂ (fun a a' => a.1 = a'.1 ∧ R a.1 a.2 a'.2) named named'

lemma find?_related {R : String → Value → Value → Prop} {named named' : List (String × Value)}
    (keywords : List.Forall₂ (fun a a' => a.1 = a'.1 ∧ R a.1 a.2 a'.2) named named')
    (name : String) :
    Option.Rel (fun a a' => R name a.2 a'.2) (named.find? (·.1 == name))
      (named'.find? (·.1 == name)) := by
  induction keywords with
  | nil => exact .none
  | @cons a a' _ _ first _ ih =>
    by_cases own : a.1 = name
    · rw [find?_cons_of_pos (by simpa using own),
        find?_cons_of_pos (by simpa [← first.1] using own)]
      exact .some (own ▸ first.2)
    · rw [find?_cons_of_neg (by simpa using own),
        find?_cons_of_neg (by simpa [← first.1] using own)]
      exact ih

section Related

variable {R : String → Value → Value → Prop} {parameters : List (String × Option Value)}
  {args args' : List Value} {named named' : List (String × Value)}

lemma Matching.argumentAt (matching : Matching R parameters args args' named named')
    {p : String × Option Value} {i : Nat} (here : parameters[i]? = some p)
    (default : ∀ v, p.2 = some v → R p.1 v v) {v v' : Value}
    (first : argumentAt args named (p, i) = .ok v)
    (second : argumentAt args' named' (p, i) = .ok v') : R p.1 v v' := by
  obtain ⟨name, default?⟩ := p
  have places := matching.places
  by_cases given : i < args.length
  · have given' : i < args'.length := places ▸ given
    simp only [Transform.argumentAt, getElem?_eq_getElem given,
      getElem?_eq_getElem given'] at first second
    cases first
    cases second
    exact matching.positional i _ _ _ here (getElem?_eq_getElem given) (getElem?_eq_getElem given')
  · have absent : args[i]? = none := getElem?_eq_none (by omega)
    have absent' : args'[i]? = none := getElem?_eq_none (by omega)
    have keyword := find?_related matching.keywords name
    simp only [Transform.argumentAt, absent, absent'] at first second
    cases found : named.find? (·.1 == name) <;> cases found' : named'.find? (·.1 == name) <;>
      rw [found, found'] at keyword <;> cases keyword
    · simp only [found, found'] at first second
      cases default? with
      | none => cases first
      | some d =>
        cases first
        cases second
        exact default v rfl
    next related =>
      simp only [found, found'] at first second
      cases first
      cases second
      exact related

/-- What is made of related arguments is related. -/
lemma Matching.arguments (matching : Matching R parameters args args' named named')
    (defaults : ∀ p ∈ parameters, ∀ v, p.2 = some v → R p.1 v v) {vs vs' : List Value}
    (first : arguments parameters args named = .ok vs)
    (second : arguments parameters args' named' = .ok vs') :
    List.Forall₂ (fun p v => R p.1 v.1 v.2) parameters (vs.zip vs') := by
  have values := arguments_ok first
  have values' := arguments_ok second
  rw [forall₂_iff_get] at values values' ⊢
  obtain ⟨length, values⟩ := values
  obtain ⟨length', values'⟩ := values'
  rw [length_zipIdx] at length length'
  refine ⟨by simp [← length, ← length'], fun i here there => ?_⟩
  have parameter : parameters[i]? = some parameters[i] := getElem?_eq_getElem here
  simp only [get_eq_getElem, getElem_zip]
  apply matching.argumentAt parameter (defaults _ (getElem_mem here))
  · simpa using values i (by simpa using here) (by omega)
  · simpa using values' i (by simpa using here) (by omega)

end Related

section Uniform

variable {R : Value → Value → Prop} {parameters : List (String × Option Value)}
  {args args' : List Value} {named named' : List (String × Value)}

lemma Matching.forall₂ (matching : Matching (fun _ => R) parameters args args' named named')
    (defaults : ∀ p ∈ parameters, ∀ v, p.2 = some v → R v v)
    (first : Transform.arguments parameters args named = .ok vs)
    (second : Transform.arguments parameters args' named' = .ok vs') : List.Forall₂ R vs vs' := by
  have related := matching.arguments defaults first second
  have length := (arguments_ok first).length_eq
  have length' := (arguments_ok second).length_eq
  rw [forall₂_iff_get]
  refine ⟨length.symm.trans length', fun i short short' => ?_⟩
  rw [length_zipIdx] at length length'
  have pair := (forall₂_iff_get.mp related).2 i (by omega) (by simp; omega)
  simpa using pair

end Uniform

/-! ### The transforms, by what they remember -/

lemma center_known (x : Value) (m : Datum) :
    outcome (center x) (.center (some m)) = (x.binary .sub (.cell m), .center (some m)) := rfl

lemma center_first (x : Value) : outcome (center x) (.center none) = match mean x with
      | .error fault => (.error fault, .center none)
      | .ok m => outcome (center x) (.center (some m)) := by
  simp only [center, outcome_bind, outcome_get, outcome_lift]
  cases mean x <;> rfl

lemma scale_known (x : Value) (m s : Datum) : outcome (scale x) (.scale (some m) (some s)) =
      (do (← x.binary .sub (.cell m)).binary .div (.cell s), .scale (some m) (some s)) := by
  simp only [scale, outcome_bind, outcome_get, outcome_lift, outcome_pure]
  cases x.binary .sub (.cell m) <;> rfl

lemma scale_first (x : Value) : outcome (scale x) (.scale none none) = match mean x with
      | .error fault => (.error fault, .scale none none)
      | .ok m => match deviation x with
        | .error fault => (.error fault, .scale (some m) none)
        | .ok s => outcome (scale x) (.scale (some m) (some s)) := by
  simp only [scale, outcome_bind, outcome_get, outcome_lift, outcome_pure, outcome_set]
  cases mean x with
  | error fault => rfl
  | ok m => cases deviation x <;> rfl

section Spline

variable (x freedom knots degree intercept lower upper : Value)

lemma spline_known (fit : SplineFit) :
    outcome (spline x freedom knots degree intercept lower upper) (.spline (some fit)) =
      (evalSpline fit x, .spline (some fit)) := rfl

lemma spline_first :
    outcome (spline x freedom knots degree intercept lower upper) (.spline none) =
      match fitSpline x freedom knots degree intercept lower upper with
      | .error fault => (.error fault, .spline none)
      | .ok fit => outcome (spline x freedom knots degree intercept lower upper)
          (.spline (some fit)) := by
  simp only [spline, outcome_bind, outcome_get, outcome_lift]
  cases fitSpline x freedom knots degree intercept lower upper <;> rfl

end Spline

/-- The points that orthogonal polynomials of a degree are taken of. -/
def pointsAt (x : Value) (height : Nat) (k : Int) : Except Fault (List Float) := do
  if k < -1 then throw .badValue
  if k = -1 then throw .outOfRange
  if let .array b := x then
    if 1 < b.rank && 0 < k then throw .badValue
  if k = 0 then pure (List.replicate height 0.0) else floats x

/-- The height of a column, the degree of polynomials and the points that they are taken of. -/
def pointsOf (x degree : Value) : Except Fault (Nat × Int × List Float) := do
  let height ← firstDimension x
  let some k := wholeNumber? degree | throw .unsupported
  return (height, k, ← pointsAt x height k)

lemma pointsOf_ok (points : pointsOf x degree = .ok (height, k, xs)) :
    firstDimension x = .ok height ∧ wholeNumber? degree = some k ∧ pointsAt x height k = .ok xs := by
  obtain ⟨height', dimension, points⟩ := bind_eq_ok.mp points
  cases whole : wholeNumber? degree with
  | none =>
    rw [whole] at points
    cases points
  | some n =>
    simp only [whole] at points
    obtain ⟨ys, found, points⟩ := bind_eq_ok.mp points
    cases points
    exact ⟨dimension, rfl, found⟩

lemma polynomial_eq (x degree raw old old' : Value) (known : Polynomial.Memory Float) :
    outcome (polynomial x degree raw) (.polynomial old old' known) =
      match raw.truthy with
      | .error fault => (.error fault, .polynomial degree raw known)
      | .ok true => (match wholeNumber? degree with
        | some k => rawPowers x k
        | none => .error .unsupported, .polynomial degree raw known)
      | .ok false => match pointsOf x degree with
        | .error fault => (.error fault, .polynomial degree raw known)
        | .ok (height, k, xs) =>
          let (columns, known) := Polynomial.scaled Float.sqrt (sum x.isSeries) xs k.toNat known
          (.ok (.array (columnsBlock height columns)), .polynomial degree raw known) := by
  simp only [polynomial, pointsOf, pointsAt, outcome_bind, outcome_get, outcome_lift, outcome_pure,
    outcome_set]
  cases raw.truthy with
  | error fault => rfl
  | ok isRaw =>
    cases isRaw with
    | true => cases wholeNumber? degree <;> rfl
    | false =>
      cases firstDimension x with
      | error fault => rfl
      | ok height =>
        cases wholeNumber? degree with
        | none => rfl
        | some k =>
          by_cases small : k < -1
          · simp only [Bool.false_eq_true, if_false, small, if_true]
            rfl
          · by_cases negative : k = -1
            · subst negative
              rfl
            · simp only [Bool.false_eq_true, small, negative, if_false]
              by_cases zero : k = 0
              all_goals
                simp only [zero, if_true, if_false]
                cases floats x
              all_goals
                cases x with
                | array b =>
                  by_cases several : 1 < b.rank
                  all_goals
                    simp only [several, decide_true, decide_false, Bool.true_and, Bool.false_and]
                    first | rfl | (split <;> rfl)
                | _ => rfl

/-! ### Calls -/

/-- The parameters of a transform, with their defaults. -/
def parameters : Stateful → List (String × Option Value)
  | .center | .scale => [("x", none)]
  | .spline =>
    [("x", none), ("df", absent), ("knots", absent), ("degree", some (.datum (.int 3))),
      ("intercept", some (.datum (.bool false))), ("lower_bound", absent), ("upper_bound", absent)]
  | .polynomial =>
    [("x", none), ("degree", some (.datum (.int 1))), ("raw", some (.datum (.bool false)))]

/-- A transform with the arguments in the order of its parameters. -/
def perform : Stateful → List Value → Remember Value
  | .center, vs =>
    match vs with
    | [x] => center x
    | _ => throw .unsupported
  | .scale, vs =>
    match vs with
    | [x] => scale x
    | _ => throw .unsupported
  | .spline, vs =>
    match vs with
    | [x, freedom, knots, degree, intercept, lower, upper] =>
      spline x freedom knots degree intercept lower upper
    | _ => throw .unsupported
  | .polynomial, vs =>
    match vs with
    | [x, degree, raw] => polynomial x degree raw
    | _ => throw .unsupported

lemma call_eq (s : Stateful) (args : List Value) (named : List (String × Value)) :
    call s args named = (do perform s (← arguments (parameters s) args named)) := by
  cases s <;> rfl

lemma outcome_call (s : Stateful) (args : List Value) (named : List (String × Value))
    (m : Memory) :
    outcome (call s args named) m = match arguments (parameters s) args named with
      | .error fault => (.error fault, m)
      | .ok vs => outcome (perform s vs) m := by
  rw [call_eq, outcome_bind, outcome_lift]
  cases arguments (parameters s) args named <;> rfl

lemma ends_call : Ends (call s args named) m v m' ↔
      ∃ vs, arguments (parameters s) args named = .ok vs ∧ Ends (perform s vs) m v m' := by
  rw [call_eq, ends_bind]
  simp

/-! ### Memories with all parameters -/

/-- All parameters are known. -/
def Memory.Complete : Memory → Prop
  | .center mean => mean.isSome
  | .scale mean deviation => mean.isSome ∧ deviation.isSome
  | .spline fit => fit.isSome
  | .polynomial degree raw known =>
    raw.truthy = .ok false → ∀ k, wholeNumber? degree = some k → Polynomial.Knows k.toNat known

/-- The degree and the form of polynomials are those of an earlier call; the other transforms only
look at their column once they have all parameters. -/
def Memory.Given : Memory → List Value → Prop
  | .polynomial degree raw _, vs => vs.drop 1 = [degree, raw]
  | _, _ => True

lemma Memory.transform_initial (s : Stateful) : (initial s).transform = s := by
  cases s <;> rfl

variable {known : Polynomial.Memory Float}

lemma polynomial_keeps (complete : (Memory.polynomial degree raw known).Complete) :
    (outcome (polynomial x degree raw) (.polynomial degree raw known)).2 =
      .polynomial degree raw known := by
  rw [polynomial_eq]
  cases truth : raw.truthy with
  | error fault => rfl
  | ok isRaw =>
    cases isRaw with
    | true => rfl
    | false =>
      cases points : pointsOf x degree with
      | error fault => rfl
      | ok found =>
        obtain ⟨height, k, xs⟩ := found
        have knows := complete truth k (pointsOf_ok points).2.1
        obtain ⟨stays, _⟩ := Polynomial.scaled_rows Float.sqrt (sum x.isSeries)
          (sum x.isSeries) knows (rfl : xs[0]? = xs[0]?)
        simp only [stays]

/-- A call with all parameters known leaves the memory, whether it succeeds or not. -/
lemma perform_keeps (complete : memory.Complete) (given : memory.Given vs) :
    (outcome (perform memory.transform vs) memory).2 = memory := by
  cases memory with
  | center mean =>
    obtain ⟨m, rfl⟩ := Option.isSome_iff_exists.mp complete
    unfold transform perform
    dsimp only
    split <;> rfl
  | scale mean deviation =>
    obtain ⟨m, rfl⟩ := Option.isSome_iff_exists.mp complete.1
    obtain ⟨s, rfl⟩ := Option.isSome_iff_exists.mp complete.2
    unfold transform perform
    dsimp only
    split
    · rw [scale_known]
    · rfl
  | spline fit =>
    obtain ⟨f, rfl⟩ := Option.isSome_iff_exists.mp complete
    unfold transform perform
    dsimp only
    split <;> rfl
  | polynomial degree raw known =>
    unfold transform perform
    dsimp only
    split
    next x degree' raw' =>
      obtain ⟨rfl, rfl⟩ : degree' = degree ∧ raw' = raw := by simpa [Given] using given
      exact polynomial_keeps complete
    next => rfl

lemma polynomial_again
    (first : Ends (polynomial x degree raw) (.polynomial old old' known) v memory) :
    ∃ known', memory = .polynomial degree raw known' ∧ memory.Complete ∧
      Ends (polynomial x degree raw) memory v memory := by
  rw [Ends, polynomial_eq] at first
  cases truth : raw.truthy with
  | error fault =>
    rw [truth] at first
    cases first
  | ok isRaw =>
    cases isRaw with
    | true =>
      simp only [truth, Prod.mk.injEq] at first
      obtain ⟨value, rfl⟩ := first
      refine ⟨known, rfl, fun no => ?_, ?_⟩
      · rw [truth] at no
        cases no
      · simp only [Ends, polynomial_eq, truth, value]
    | false =>
      simp only [truth] at first
      cases points : pointsOf x degree with
      | error fault =>
        rw [points] at first
        cases first
      | ok found =>
        obtain ⟨height, k, xs⟩ := found
        simp only [points, Prod.mk.injEq, Except.ok.injEq] at first
        obtain ⟨rfl, rfl⟩ := first
        refine ⟨_, rfl, fun _ n whole => ?_, ?_⟩
        · obtain rfl : k = n := Option.some.inj ((pointsOf_ok points).2.1.symm.trans whole)
          exact Polynomial.scaled_knows _ _ _ _ _
        · simp only [Ends, polynomial_eq, truth, points, Polynomial.scaled_again]

/-- A first call that succeeds finds all parameters; made again, it gives the same. -/
lemma perform_again (first : Ends (perform s vs) (.initial s) v memory) :
    memory.transform = s ∧ memory.Complete ∧ memory.Given vs ∧
      Ends (perform s vs) memory v memory := by
  cases s with
  | center =>
    unfold perform at first ⊢
    dsimp only at first ⊢
    split at first
    next x =>
      rw [Ends, initial, center_first] at first
      cases mean : mean x with
      | error fault =>
        rw [mean] at first
        cases first
      | ok m =>
        simp only [mean, center_known, Prod.mk.injEq] at first
        obtain ⟨value, rfl⟩ := first
        exact ⟨rfl, rfl, trivial, by rw [Ends, center_known, value]⟩
    next => exact (ends_throw first).elim
  | scale =>
    unfold perform at first ⊢
    dsimp only at first ⊢
    split at first
    next x =>
      rw [Ends, initial, scale_first] at first
      cases mean : mean x with
      | error fault =>
        rw [mean] at first
        cases first
      | ok m =>
        cases deviation : deviation x with
        | error fault =>
          rw [mean, deviation] at first
          cases first
        | ok s =>
          simp only [mean, deviation, scale_known, Prod.mk.injEq] at first
          obtain ⟨value, rfl⟩ := first
          exact ⟨rfl, ⟨rfl, rfl⟩, trivial, by rw [Ends, scale_known, value]⟩
    next => exact (ends_throw first).elim
  | spline =>
    unfold perform at first ⊢
    dsimp only at first ⊢
    split at first
    next x freedom knots degree intercept lower upper =>
      rw [Ends, initial, spline_first] at first
      cases fitted : fitSpline x freedom knots degree intercept lower upper with
      | error fault =>
        rw [fitted] at first
        cases first
      | ok fit =>
        simp only [fitted, spline_known, Prod.mk.injEq] at first
        obtain ⟨value, rfl⟩ := first
        exact ⟨rfl, rfl, trivial, by rw [Ends, spline_known, value]⟩
    next => exact (ends_throw first).elim
  | polynomial =>
    unfold perform at first ⊢
    dsimp only at first ⊢
    split at first
    next x degree raw =>
      obtain ⟨known, rfl, complete, again⟩ := polynomial_again first
      exact ⟨rfl, complete, rfl, again⟩
    next => exact (ends_throw first).elim

end ModelFormula.Transform
