import ModelFormula.Proofs.Codings.Sublists
import ModelFormula.Proofs.Numbers.OrthogonalPolynomials
import ModelFormula.Transform

/-!
# Knots of splines in exact numbers

A spline is fitted by its knots: inner ones that are given or stand at quantiles of the data,
between two bounds that are given or the extremes of the data. In exact numbers the knots of an
accepted fit are the lower bound, the inner knots in order and the upper bound. Quantiles stand
between the extremes, so that degrees of freedom alone always make a spline, unless they are too
few.
-/
namespace ModelFormula

/-- The extreme of some items stands among them, and none comes before it. -/
lemma Statistics.extremeOf_eq_ok {α ε : Type} {r : α → α → Prop} [DecidableRel r]
    [IsStrictTotalOrder α r] (none : ε) {xs : List α} (some : xs ≠ []) :
    ∃ m ∈ xs, extremeOf (fun x y => .ok (decide (r x y))) none xs = .ok m ∧ ∀ y ∈ xs, ¬ r y m := by
  obtain ⟨x, xs, rfl⟩ := List.exists_cons_of_ne_nil some
  clear some
  -- the better of the first two items is what the others are compared with
  induction xs generalizing x with
  | nil => exact ⟨x, by simp, rfl, by simpa using irrefl x⟩
  | cons y ys ih =>
    by_cases less : r y x
    · obtain ⟨m, mem, done, least⟩ := ih y
      refine ⟨m, .tail _ mem, ?_, ?_⟩
      · simp only [extremeOf, List.foldlM_cons, less, decide_true]
        exact done
      · have first := IsOrderConnected.neg_trans (asymm less) (least y (by simp))
        exact List.forall_mem_cons.mpr ⟨first, least⟩
    · obtain ⟨m, mem, done, least⟩ := ih x
      obtain ⟨first, rest⟩ := List.forall_mem_cons.mp least
      refine ⟨m, by grind, ?_, by simpa using ⟨first, IsOrderConnected.neg_trans less first, rest⟩⟩
      simp only [extremeOf, List.foldlM_cons, less, decide_false]
      exact done

/-- Too few degrees of freedom are refused before anything else is looked at. -/
lemma Spline.fit_few {ε N K : Type} [Scalar N] [LT K] [DecidableLT K] (args : Arguments ε N K)
    (freedom : args.freedom = some n) (flag : args.intercept = .ok intercept)
    (few : innerCount n args.degree intercept < 0) :
    fit args = .error (args.refuse (.few (n - innerCount n args.degree intercept))) := by
  simp only [fit, Arguments.inner, freedom, flag, bind, Except.bind, few, if_true]
  rfl

/-- Too few degrees of freedom stop a first call that has nothing else. -/
lemma Transform.fitSpline_few (few : Spline.innerCount freedom degree intercept < 0) (x : Value) :
    fitSpline x (.datum (.int freedom)) (.datum .null) (.datum (.int (degree : Nat)))
      (.datum (.bool intercept)) (.datum .null) (.datum .null) =
    .error (.freedomSmall (Datum.int freedom).plain (Datum.int degree).plain
      (Datum.bool intercept).plain
      (Datum.int (freedom - Spline.innerCount freedom degree intercept)).plain) := by
  have nonneg : ¬ (degree : Int) < 0 := by omega
  have refused := Spline.fit_few (splineArguments x (.datum .null) (.datum (.bool intercept))
    (.datum .null) (.datum .null) (.int freedom, some freedom) (.int degree) degree) rfl rfl few
  simp only [fitSpline, freedomOf, wholeNumber?, Datum.int?, nonneg, Value.truthy, Datum.truthy, bind,
    Except.bind, if_false, Int.toNat_natCast, refused]
  simp [splineArguments, splineFault, splineFault.like]

namespace Spline

open List
open scoped Scalar

/-- The bounds stand in order and no inner knot outside of them. -/
structure Accepted {K : Type} [LT K] [DecidableLT K] (lower upper : K) (inner : List K) : Prop where
  ordered : crossed lower upper = false
  low : below lower inner = []
  high : above upper inner = []

variable {a b : ℚ} {degree n : Nat} {xs ts t : List ℚ} {intercept : Bool}

/-! ### Knots in order -/

lemma ascending_perm (xs : List ℚ) : (ascending xs).Perm xs := mergeSort_perm _ _

lemma ascending_sorted (xs : List ℚ) : (ascending xs).Pairwise (· ≤ ·) :=
  pairwise_mergeSort_key id (fun _ _ => by simp) xs

/-- Knots of a spline between two bounds: in increasing order, the bounds at both ends as often as
the degree and one more, and the inner knots between them. -/
structure Enclosed (degree : Nat) (a b : ℚ) (ts t : List ℚ) : Prop where
  sorted : t.Pairwise (· ≤ ·)
  split : t = replicate (degree + 1) a ++ ascending ts ++ replicate (degree + 1) b

lemma accepted_iff : Accepted a b ts ↔ a ≤ b ∧ ∀ s ∈ ts, a ≤ s ∧ s ≤ b := by
  have first : crossed a b = false ↔ a ≤ b := by simp [crossed]
  have second : below a ts = [] ↔ ∀ s ∈ ts, a ≤ s := by simp [below]
  have third : above b ts = [] ↔ ∀ s ∈ ts, s ≤ b := by simp [above]
  rw [forall₂_and, ← first, ← second, ← third]
  exact ⟨fun accepted => ⟨accepted.ordered, accepted.low, accepted.high⟩,
    fun ⟨ordered, low, high⟩ => ⟨ordered, low, high⟩⟩

/-- Accepted knots are enclosed by the bounds. -/
lemma Accepted.enclosed (accepted : Accepted a b ts) (degree : Nat) :
    Enclosed degree a b ts (allKnots degree a b ts) := by
  obtain ⟨ordered, between⟩ := accepted_iff.mp accepted
  have inside : ∀ s ∈ ascending ts, a ≤ s ∧ s ≤ b := fun s mem =>
    between s ((ascending_perm ts).mem_iff.mp mem)
  refine ⟨ascending_sorted _, Perm.eq_of_pairwise' (r := (· ≤ ·)) (ascending_sorted _) ?_ ?_⟩
  · simp only [pairwise_append, pairwise_replicate, le_refl, or_true, mem_append,
      mem_replicate, true_and, ascending_sorted]
    refine ⟨fun x own s mem => own.2 ▸ (inside s mem).1, ?_⟩
    rintro x (own | mem) y other
    · rw [own.2, other.2]
      exact ordered
    · rw [other.2]
      exact (inside x mem).2
  · refine (ascending_perm _).trans ?_
    rw [append_assoc, append_assoc]
    refine Perm.append_left _ (perm_append_comm.trans ?_)
    exact Perm.append_right _ (ascending_perm ts).symm

lemma Enclosed.basisSize_eq (enclosed : Enclosed degree a b ts t) :
    basisSize t degree = degree + 1 + ts.length := by
  rw [enclosed.split, basisSize]
  simp [(ascending_perm ts).length_eq]
  omega

/-! ### Quantiles -/

/-- What lies between two numbers. -/
lemma between_mem (ordered : a ≤ b) (low : 0 ≤ q) (high : q ≤ 1) :
    a ≤ between a b q ∧ between a b q ≤ b := by
  have one : (Scalar.ofNat 1 : ℚ) = 1 := rfl
  have first : 0 ≤ (b - a) * q := mul_nonneg (by linarith) low
  have second : 0 ≤ (b - a) * (1 - q) := mul_nonneg (by linarith) (by linarith)
  rw [between, one]
  split <;> constructor <;> linarith

/-- A quantile stands between the bounds of the data. -/
lemma quantile_mem (some : xs ≠ []) (sorted : xs.Pairwise (· ≤ ·))
    (each : ∀ x ∈ xs, a ≤ x ∧ x ≤ b) (low : 0 ≤ q) :
    a ≤ quantile xs q ∧ quantile xs q ≤ b := by
  have floor (y : ℚ) : Scalar.floor y = ⌊y⌋₊ := rfl
  have cast (n : Nat) : (Scalar.ofNat n : ℚ) = n := rfl
  simp only [quantile, floor, cast]
  generalize position : q * ((xs.length - 1 : Nat) : ℚ) = p
  have nonneg : 0 ≤ p := position ▸ mul_nonneg low (Nat.cast_nonneg _)
  split
  · next c d first second =>
    obtain ⟨inside, rfl⟩ := List.getElem?_eq_some_iff.mp first
    obtain ⟨inside', rfl⟩ := List.getElem?_eq_some_iff.mp second
    have ordered := pairwise_iff_getElem.mp sorted _ _ inside inside' (Nat.lt_succ_self _)
    have mem := between_mem (q := p - ⌊p⌋₊) ordered (by linarith [Nat.floor_le nonneg])
      (by linarith [Nat.lt_floor_add_one p])
    exact ⟨(each _ (getElem_mem _)).1.trans mem.1, mem.2.trans (each _ (getElem_mem _)).2⟩
  · rw [getLast?_eq_some_getLast some]
    exact each _ (getLast_mem some)

lemma innerKnots_mem (some : xs ≠ []) (each : ∀ x ∈ xs, a ≤ x ∧ x ≤ b) :
    ∀ s ∈ innerKnots (ascending xs) n, a ≤ s ∧ s ≤ b := by
  have cast (n : Nat) : (Scalar.ofNat n : ℚ) = n := rfl
  have perm := ascending_perm xs
  have some : ascending xs ≠ [] := fun none => some (nil_perm.mp (none ▸ perm))
  intro s mem
  obtain ⟨i, _, rfl⟩ := mem_map.mp mem
  apply quantile_mem some (ascending_sorted xs) fun x own => each x (perm.mem_iff.mp own)
  simp only [cast]
  positivity

/-! ### Degrees of freedom -/

/-- The least degrees of freedom of a spline: one for each function that is always there. -/
def leastFreedom (degree : Nat) (intercept : Bool) : Nat := degree + if intercept then 1 else 0

lemma innerCount_eq (freedom : Int) :
    innerCount freedom degree intercept = freedom - leastFreedom degree intercept := by
  simp only [innerCount, leastFreedom]
  split <;> push_cast <;> ring

lemma length_of_mem_eval {r : List ℚ} (mem : r ∈ eval t degree intercept xs) :
    r.length = width t degree intercept := by
  obtain ⟨x, _, rfl⟩ := mem_map.mp mem
  cases intercept <;> simp [row, width, basisRow]

/-- Exact data and degrees of freedom, without given knots and bounds. -/
def exactly (xs : List ℚ) (freedom : Int) (degree : Nat) (intercept : Bool) :
    Arguments (Refusal ℚ) ℚ ℚ where
  freedom := freedom
  degree := degree
  intercept := .ok intercept
  given := none
  numbers _ := .ok xs
  ofNumber := id
  lower := Statistics.extremeOf (fun x y => .ok (decide (x < y))) .noData xs
  upper := Statistics.extremeOf (fun x y => .ok (decide (y < x))) .noData xs
  comparable _ _ := .ok ()
  refuse := id

lemma quantileKnots_eq (xs : List ℚ) (n : Nat) :
    quantileKnots xs n = innerKnots (ascending xs) n := by
  have found : xs.find? (fun x => x != x) = none := by simp
  rw [quantileKnots, found]

/-- A fit of exact data between their extremes. -/
lemma fit_exactly {n : Int} (some : xs ≠ []) (enough : 0 ≤ innerCount n degree intercept)
    (lower : (exactly xs n degree intercept).lower = .ok a)
    (upper : (exactly xs n degree intercept).upper = .ok b)
    (accepted : Accepted a b (innerKnots (ascending xs) (innerCount n degree intercept).toNat)) :
    fit (exactly xs n degree intercept) = .ok (allKnots degree a b
      (innerKnots (ascending xs) (innerCount n degree intercept).toNat)) := by
  have inner : (exactly xs n degree intercept).inner =
      .ok (.ok (innerKnots (ascending xs) (innerCount n degree intercept).toNat)) := by
    simp [Arguments.inner, exactly, bind, Except.bind, pure, Except.pure, quantileKnots_eq, some,
      not_lt.mpr enough]
  have comparable (ts y) : (exactly xs n degree intercept).comparable ts y = .ok () := rfl
  simp only [fit, inner, lower, upper, comparable, bind, Except.bind, pure, Except.pure,
    accepted.ordered, accepted.low, accepted.high]
  rfl

/-- Degrees of freedom alone make a spline of any exact data, as long as they are enough. The inner
knots stand at quantiles; all knots are in order, with as many copies of the smallest and the largest
number at the ends as the degree and one more; and the functions are as many as the degrees of
freedom. Fewer are refused, whatever the data are. -/
theorem fit_freedom (degree : Nat) (intercept : Bool) (freedom : Int) :
    (leastFreedom degree intercept ≤ freedom → ∀ xs : List ℚ, xs ≠ [] → ∃ a b ts t,
      fit (exactly xs freedom degree intercept) = .ok t ∧
      (a ∈ xs ∧ ∀ x ∈ xs, a ≤ x) ∧ (b ∈ xs ∧ ∀ x ∈ xs, x ≤ b) ∧ t.Pairwise (· ≤ ·) ∧
      t = replicate (degree + 1) a ++ ts ++ replicate (degree + 1) b ∧
      ts = ascending (innerKnots (ascending xs) (innerCount freedom degree intercept).toNat) ∧
      ∀ ys, (eval t degree intercept ys).length = ys.length ∧
        ∀ r ∈ eval t degree intercept ys, (r.length : Int) = freedom) ∧
    (freedom < leastFreedom degree intercept → (∀ xs, fit (exactly xs freedom degree intercept) =
        .error (.few (leastFreedom degree intercept))) ∧
      ∀ x : Value, ∃ fault,
        Transform.fitSpline x (.datum (.int freedom)) (.datum .null) (.datum (.int degree))
          (.datum (.bool intercept)) (.datum .null) (.datum .null) = .error fault ∧
        fault.category = .value ∧ fault = .freedomSmall (Datum.int freedom).plain
          (Datum.int degree).plain (Datum.bool intercept).plain
          (Datum.int (leastFreedom degree intercept)).plain) := by
  have count := @innerCount_eq degree intercept freedom
  constructor
  · intro enough xs some
    obtain ⟨a, first, lower, least⟩ := Statistics.extremeOf_eq_ok (r := (· < ·)) (ε := Refusal ℚ)
      .noData some
    obtain ⟨b, last, upper, greatest⟩ := Statistics.extremeOf_eq_ok (r := (· > ·)) (ε := Refusal ℚ)
      .noData some
    simp only [gt_iff_lt, not_lt] at least greatest
    have accepted := accepted_iff.mpr ⟨least b last,
      innerKnots_mem (n := (innerCount freedom degree intercept).toNat) some fun x own =>
        ⟨least x own, greatest x own⟩⟩
    have enclosed := accepted.enclosed degree
    refine ⟨a, b, _, _, fit_exactly some (by omega) lower upper accepted, ⟨first, least⟩,
      ⟨last, greatest⟩, enclosed.sorted, enclosed.split, rfl, fun ys => ⟨by simp [eval], ?_⟩⟩
    intro r mem
    rw [length_of_mem_eval mem, width, enclosed.basisSize_eq, innerKnots, length_map, length_range,
      count]
    cases intercept <;> simp [leastFreedom] at enough ⊢ <;> omega
  · intro few
    constructor
    · intro xs
      have refused := fit_few (exactly xs freedom degree intercept) rfl rfl (count ▸ by omega)
      exact refused.trans (by rw [exactly, count, Int.sub_sub_self]; rfl)
    · intro x
      refine ⟨_, Transform.fitSpline_few (by omega) x, rfl, ?_⟩
      rw [count, Int.sub_sub_self]

/-- Data with a tie at their maximum, in which the quantiles stand too. -/
theorem fit_freedom_tied :
    (∃ t, fit (exactly [2, 0, 2] 3 1 false) = .ok t ∧ t.Pairwise (· ≤ ·)) ∧
    ∃ fault, Transform.fitSpline default (.datum (.int 0)) (.datum .null) (.datum (.int 1))
      (.datum (.bool false)) (.datum .null) (.datum .null) = .error fault ∧
      fault.category = .value := by
  obtain ⟨_, _, _, t, done, _, _, sorted, _⟩ :=
    (fit_freedom 1 false 3).1 (by decide) [2, 0, 2] (by decide)
  obtain ⟨fault, few, value, _⟩ := ((fit_freedom 1 false 0).2 (by decide)).2 default
  exact ⟨⟨t, done, sorted⟩, fault, few, value⟩

end Spline

end ModelFormula
