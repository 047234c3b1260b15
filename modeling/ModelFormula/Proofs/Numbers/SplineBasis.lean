import ModelFormula.Proofs.Numbers.SplineKnots

/-!
# Basis functions of splines in exact numbers

Every point between the bounds lies in an interval of positive length. Raising the degree splits each
function of such an interval into two parts with nonnegative weights: the functions stay nonnegative
and their sum stays 1. At the upper bound the last interval is taken, which an inner knot at that
bound leaves without length; then nothing is passed on and all functions are 0.
-/
namespace ModelFormula.Spline

open List
open scoped Scalar

variable {t ts hs rest : List ℚ} {a b x p h : ℚ} {degree l i j : Nat}

/-! ### Intervals -/

namespace Enclosed

variable (enclosed : Enclosed degree a b ts t)
include enclosed

lemma length_eq : t.length = basisSize t degree + (degree + 1) := by
  simp [basisSize, enclosed.split]
  omega

lemma degree_lt : degree < basisSize t degree := by
  simp [basisSize, enclosed.split]
  omega

lemma knot_mono (ordered : i ≤ j) (inside : j < t.length) : knot t i ≤ knot t j := by
  rcases Nat.eq_or_lt_of_le ordered with rfl | before
  · exact le_refl _
  · rw [knot, knot, getElem?_eq_getElem (by omega), getElem?_eq_getElem inside]
    exact pairwise_iff_getElem.mp enclosed.sorted i j _ inside before

lemma knot_first (first : i ≤ degree) : knot t i = a := by
  rw [knot, enclosed.split, append_assoc, getElem?_append_left (by simp; omega),
    getElem?_replicate_of_lt (by omega)]
  rfl

lemma knot_last (last : basisSize t degree ≤ i) (inside : i < t.length) : knot t i = b := by
  rw [basisSize, enclosed.split] at last
  rw [enclosed.split] at inside
  simp only [length_append, length_replicate] at last inside
  rw [knot, enclosed.split, getElem?_append_right (by simp; omega),
    getElem?_replicate_of_lt (by simp; omega)]
  rfl

lemma knot_le (inside : i < t.length) : knot t i ≤ b := by
  have long := enclosed.length_eq
  rw [← enclosed.knot_last (i := t.length - 1) (by omega) (by omega)]
  exact enclosed.knot_mono (by omega) (by omega)

/-- The last interval has no length if and only if an inner knot stands at the upper bound. -/
lemma knot_eq_upper_iff (ordered : a < b) : knot t (basisSize t degree - 1) = b ↔ b ∈ ts := by
  have size : (replicate (degree + 1) a ++ ascending ts).length = basisSize t degree := by
    simp [basisSize, enclosed.split]
    omega
  have wide := enclosed.degree_lt
  have among : ∀ i < basisSize t degree,
      t[i]? = (replicate (degree + 1) a ++ ascending ts)[i]? := fun i inside => by
    rw [enclosed.split, getElem?_append_left (by omega)]
  constructor
  · intro eq
    rw [knot, among _ (by omega), getElem?_eq_getElem (by omega), Option.getD_some] at eq
    have mem := eq ▸ getElem_mem (l := replicate (degree + 1) a ++ ascending ts) _
    rcases mem_append.mp mem with lower | own
    · exact absurd (eq_of_mem_replicate lower) ordered.ne'
    · exact (ascending_perm ts).mem_iff.mp own
  · intro mem
    have own := mem_append_right (replicate (degree + 1) a) ((ascending_perm ts).mem_iff.mpr mem)
    obtain ⟨i, inside, eq⟩ := getElem_of_mem own
    have here : knot t i = b := by
      rw [knot, among i (by omega), getElem?_eq_getElem inside, eq]
      rfl
    have long := enclosed.length_eq
    apply le_antisymm (enclosed.knot_le (by omega))
    rw [← here]
    exact enclosed.knot_mono (by omega) (by omega)

/-- A point between the bounds lies in an interval of positive length. -/
lemma interval_spec (first : a ≤ x) (last : x < b) :
    degree ≤ interval t degree x ∧ interval t degree x < basisSize t degree ∧
      knot t (interval t degree x) ≤ x ∧ x < knot t (interval t degree x + 1) := by
  have wide := enclosed.degree_lt
  have long := enclosed.length_eq
  have found : ∃ i, (range (basisSize t degree - degree)).find?
      (fun i => decide (x < knot t (degree + i + 1))) = some i := by
    rw [← Option.isSome_iff_exists, find?_isSome]
    refine ⟨basisSize t degree - degree - 1, mem_range.mpr (by omega), ?_⟩
    rw [enclosed.knot_last (by omega) (by omega)]
    simpa using last
  obtain ⟨i, found⟩ := found
  have chosen : interval t degree x = degree + i := by
    simp only [interval, find?_map, Function.comp_def]
    rw [found]
    rfl
  obtain ⟨after, mem, before⟩ := find?_range_eq_some.mp found
  rw [mem_range] at mem
  rw [chosen]
  refine ⟨by omega, by omega, ?_, by simpa using after⟩
  cases i with
  | zero => rwa [Nat.add_zero, enclosed.knot_first (Nat.le_refl _)]
  | succ i => simpa [Nat.add_assoc] using before i (Nat.lt_succ_self i)

/-- No interval ends behind the upper bound, so that the last one is taken. -/
lemma interval_upper : interval t degree b = basisSize t degree - 1 := by
  have wide := enclosed.degree_lt
  have long := enclosed.length_eq
  have none : (range (basisSize t degree - degree)).find?
      (fun i => decide (b < knot t (degree + i + 1))) = none := by
    rw [find?_eq_none]
    intro i mem
    rw [mem_range] at mem
    simpa using enclosed.knot_le (i := degree + i + 1) (by omega)
  simp only [interval, find?_map, Function.comp_def]
  rw [none]
  rfl

end Enclosed

/-! ### Raising the degree -/

lemma length_raise : (raise t x l j i p hs).length = hs.length + 1 := by
  induction hs generalizing i p with
  | nil => rfl
  | cons h hs ih =>
    rw [raise]
    split <;> simp [ih]

lemma length_intervalBasis (t : List ℚ) (x : ℚ) (l j : Nat) :
    (intervalBasis t x l j).length = j + 1 := by
  induction j with
  | zero => rfl
  | succ j ih => rw [intervalBasis, length_raise, ih]

lemma raise_of_ne (apart : knot t (l + i + 1) ≠ knot t (l + i + 1 - j)) :
    raise t x l j i p (h :: rest) =
      (p + h / (knot t (l + i + 1) - knot t (l + i + 1 - j)) * (knot t (l + i + 1) - x)) ::
        raise t x l j (i + 1)
          (h / (knot t (l + i + 1) - knot t (l + i + 1 - j)) * (x - knot t (l + i + 1 - j)))
          rest := by
  rw [raise]
  simp only [bne_iff_ne, ne_eq, apart, not_false_eq_true, if_true]

lemma raise_of_eq (eq : knot t (l + i + 1) = knot t (l + i + 1 - j)) :
    raise t x l j i p (h :: rest) = p :: raise t x l j (i + 1) 0 rest := by
  rw [raise]
  simp only [eq, bne_self_eq_false, Bool.false_eq_true, if_false]
  rfl

/-- Between knots that are apart a function is split into two parts, and nothing is lost. -/
lemma raise_splits (nonneg : 0 ≤ p) (each : ∀ h ∈ hs, 0 ≤ h)
    (around : ∀ m, i ≤ m → m < i + hs.length →
      knot t (l + m + 1 - j) ≤ x ∧ x < knot t (l + m + 1)) :
    (∀ h ∈ raise t x l j i p hs, 0 ≤ h) ∧ (raise t x l j i p hs).sum = p + hs.sum := by
  induction hs generalizing i p with
  | nil => simpa [raise] using nonneg
  | cons h hs ih =>
    obtain ⟨first, others⟩ := forall_mem_cons.mp each
    obtain ⟨left, right⟩ := around i (Nat.le_refl i) (by simp)
    have wide : 0 < knot t (l + i + 1) - knot t (l + i + 1 - j) := by linarith
    have share : 0 ≤ h / (knot t (l + i + 1) - knot t (l + i + 1 - j)) := div_nonneg first wide.le
    obtain ⟨later, sum⟩ := ih (i := i + 1) (mul_nonneg share (sub_nonneg.mpr left)) others
      fun m after before => around m (by omega) (by simp; omega)
    rw [raise_of_ne (by linarith), sum_cons, sum, sum_cons]
    refine ⟨forall_mem_cons.mpr ⟨?_, later⟩, ?_⟩
    · exact add_nonneg nonneg (mul_nonneg share (by linarith))
    · have whole := div_mul_cancel₀ h wide.ne'
      linear_combination whole

/-- In an interval around the point the functions of each degree are weights. -/
lemma intervalBasis_weights (lower : ∀ m ≤ l, knot t m ≤ x)
    (upper : ∀ m, l < m → m ≤ l + degree → x < knot t m) (low : degree ≤ l) :
    (∀ h ∈ intervalBasis t x l degree, 0 ≤ h) ∧ (intervalBasis t x l degree).sum = 1 := by
  induction degree with
  | zero =>
    have base : intervalBasis t x l 0 = [1] := rfl
    simp [base]
  | succ j ih =>
    obtain ⟨each, sum⟩ := ih (fun m after before => upper m after (by omega)) (by omega)
    have zero : (Scalar.ofNat 0 : ℚ) = 0 := rfl
    rw [intervalBasis, zero]
    refine (raise_splits le_rfl each fun m _ before => ?_).imp_right fun raised => ?_
    · rw [length_intervalBasis] at before
      exact ⟨lower _ (by omega), upper _ (by omega) (by omega)⟩
    · rw [raised, sum, zero_add]

/-! ### All functions -/

/-- A combination with the coefficients of a unit vector picks one function. -/
lemma foldl_unit (c : Nat → ℚ) (s k : Nat) (sum : ℚ)
    (unit : ∀ q < k + hs.length, c q = if s + q = i then 1 else 0) :
    ((hs.zipIdx k).map fun p => c p.2 * p.1).foldl (· + ·) sum =
      sum + if s + k ≤ i then hs[i - (s + k)]?.getD 0 else 0 := by
  induction hs generalizing k sum with
  | nil => simp
  | cons h hs ih =>
    rw [length_cons] at unit
    rw [zipIdx_cons, map_cons, foldl_cons,
      ih (k + 1) _ fun q inside => unit q (by omega), unit k (by omega), add_assoc]
    congr 1
    rcases Nat.lt_trichotomy (s + k) i with before | rfl | after
    · obtain ⟨m, rfl⟩ : ∃ m, i = s + k + 1 + m := ⟨i - (s + k + 1), by omega⟩
      have place : s + k + 1 + m - (s + k) = m + 1 := by omega
      simp [place, show s + (k + 1) ≤ s + k + 1 + m by omega, show s + k ≤ s + k + 1 + m by omega,
        show s + k ≠ s + k + 1 + m by omega, show s + k + 1 + m - (s + (k + 1)) = m by omega]
    · simp
    · simp [show ¬ s + k ≤ i by omega, show ¬ s + (k + 1) ≤ i by omega, show s + k ≠ i by omega]

/-- All functions are those of the interval, with zeros on both sides. -/
lemma basisRow_eq (chosen : interval t degree x = l) (low : degree ≤ l)
    (high : l < basisSize t degree) :
    basisRow t degree x = replicate (l - degree) 0 ++ intervalBasis t x l degree ++
      replicate (basisSize t degree - 1 - l) 0 := by
  have long := length_intervalBasis t x l degree
  apply ext_getElem
  · simp [basisRow, long]
    omega
  · intro i inside _
    have within : i < basisSize t degree := by simpa [basisRow] using inside
    have picked : value t (unitVector (basisSize t degree) i) degree x =
        0 + if l - degree + 0 ≤ i then (intervalBasis t x l degree)[i - (l - degree + 0)]?.getD 0
          else 0 := by
      simp only [value, chosen]
      refine foldl_unit (fun q => (unitVector (basisSize t degree) i)[l - degree + q]?.getD 0)
        (l - degree) 0 0 fun q inside => ?_
      rw [long] at inside
      rw [unitVector, getElem?_map, getElem?_range (by omega)]
      simp [Scalar.ofNat]
    simp only [basisRow, getElem_map, getElem_range, picked, zero_add, Nat.add_zero,
      getElem_append, length_append, length_replicate, long, getElem_replicate]
    -- the place is in front of the interval, in it or behind it
    rcases Nat.lt_or_ge i (l - degree) with before | after
    · rw [if_neg (by omega), dif_pos (by omega), dif_pos before]
    · rw [if_pos after]
      rcases Nat.lt_or_ge i (l + 1) with here | behind
      · rw [dif_pos (by omega), dif_neg (by omega), getElem?_eq_getElem (by omega)]
        rfl
      · rw [dif_neg (by omega), getElem?_eq_none (by omega)]
        rfl

/-- Between the bounds of an accepted fit the basis functions are nonnegative and sum to 1, and each
is zero outside its own knots. Without the intercept the first of them is left out. -/
theorem basisRow_partition (accepted : Accepted a b ts) (knots : allKnots degree a b ts = t)
    (first : a ≤ x) (last : x < b) :
    (∀ h ∈ basisRow t degree x, 0 ≤ h) ∧ (basisRow t degree x).sum = 1 ∧
      (∀ i h, (basisRow t degree x)[i]? = some h →
        ¬ (knot t i ≤ x ∧ x < knot t (i + degree + 1)) → h = 0) ∧
      (basisRow t degree x).length = t.length - (degree + 1) ∧
      row t degree true x = basisRow t degree x ∧
      ∃ h, basisRow t degree x = h :: row t degree false x := by
  have enclosed := knots ▸ accepted.enclosed degree
  obtain ⟨low, high, before, after⟩ := enclosed.interval_spec first last
  have long := enclosed.length_eq
  obtain ⟨l, chosen⟩ : ∃ l, interval t degree x = l := ⟨_, rfl⟩
  rw [chosen] at low high before after
  obtain ⟨nonneg, sum⟩ := intervalBasis_weights
    (fun m le => (enclosed.knot_mono le (by omega)).trans before)
    (fun m lt le => after.trans_le (enclosed.knot_mono lt (by omega))) low
  have eq := basisRow_eq chosen low high
  have size : (basisRow t degree x).length = basisSize t degree := by simp [basisRow]
  refine ⟨?_, ?_, ?_, size, rfl, ?_⟩
  · rw [eq]
    simp only [mem_append, mem_replicate]
    rintro h ((⟨_, rfl⟩ | own) | ⟨_, rfl⟩)
    · exact le_refl 0
    · exact nonneg h own
    · exact le_refl 0
  · rw [eq]
    simp [sum]
  · intro i h found outside
    have inside : i < basisSize t degree := size ▸ (List.getElem?_eq_some_iff.mp found).1
    -- a function of the interval around the point has its knots on both sides of it
    rcases Nat.lt_or_ge i (l - degree) with early | late
    · rw [eq, append_assoc, getElem?_append_left (by simpa using early)] at found
      exact eq_of_mem_replicate (mem_of_getElem? found)
    · rcases Nat.lt_or_ge l i with behind | here
      · rw [eq, getElem?_append_right (by simp [length_intervalBasis]; omega)] at found
        exact eq_of_mem_replicate (mem_of_getElem? found)
      · refine absurd ⟨?_, ?_⟩ outside
        · exact (enclosed.knot_mono here (by omega)).trans before
        · exact after.trans_le (enclosed.knot_mono (by omega) (by omega))
  · obtain ⟨h, rest, whole⟩ := exists_cons_of_length_pos
      (l := basisRow t degree x) (by rw [size]; have := enclosed.degree_lt; omega)
    exact ⟨h, by simp [row, whole]⟩

/-- A point at a double inner knot. -/
theorem basisRow_partition_doubled :
    allKnots 2 0 3 [1, 1] = [0, 0, 0, 1, 1, 3, 3, (3 : ℚ)] ∧
      (∀ h ∈ basisRow [0, 0, 0, 1, 1, 3, 3, 3] 2 1, (0 : ℚ) ≤ h) ∧
      (basisRow [0, 0, 0, 1, 1, 3, 3, 3] 2 (1 : ℚ)).sum = 1 := by
  have accepted : Accepted (0 : ℚ) 3 [1, 1] := accepted_iff.mpr (by decide)
  have knots : allKnots 2 0 3 [1, 1] = [0, 0, 0, 1, 1, 3, 3, (3 : ℚ)] := by cbv
  obtain ⟨nonneg, sum, _⟩ := basisRow_partition (x := 1) accepted knots (by decide) (by decide)
  exact ⟨knots, nonneg, sum⟩

/-! ### The upper bound -/

/-- At a point where all right ends stand, each function is passed on as a whole. -/
lemma raise_shift (around : ∀ m, i ≤ m → m < i + hs.length →
    knot t (l + m + 1 - j) < x ∧ knot t (l + m + 1) = x) : raise t x l j i p hs = p :: hs := by
  induction hs generalizing i p with
  | nil => rfl
  | cons h hs ih =>
    obtain ⟨left, right⟩ := around i (Nat.le_refl i) (by simp)
    have wide : x - knot t (l + i + 1 - j) ≠ 0 := (sub_pos.mpr left).ne'
    rw [raise_of_ne (by rw [right]; exact left.ne'), right, sub_self, mul_zero, add_zero,
      div_mul_cancel₀ h wide, ih fun m after before => around m (by omega) (by simp; omega)]

lemma intervalBasis_shift (lower : ∀ m ≤ l, knot t m < x)
    (upper : ∀ m, l < m → m ≤ l + degree → knot t m = x) (low : degree ≤ l) :
    intervalBasis t x l degree = replicate degree 0 ++ [1] := by
  induction degree with
  | zero => rfl
  | succ j ih =>
    rw [intervalBasis, ih (fun m after before => upper m after (by omega)) (by omega),
      raise_shift, replicate_succ]
    · rfl
    · intro m _ before
      simp only [length_append, length_replicate, length_singleton] at before
      exact ⟨lower _ (by omega), upper _ (by omega) (by omega)⟩

lemma raise_zeros (none : ∀ h ∈ hs, h = 0) :
    raise t x l j i 0 hs = replicate (hs.length + 1) 0 := by
  induction hs generalizing i with
  | nil => rfl
  | cons h hs ih =>
    obtain ⟨rfl, others⟩ := forall_mem_cons.mp none
    by_cases eq : knot t (l + i + 1) = knot t (l + i + 1 - j)
    · rw [raise_of_eq eq, ih others]
      rfl
    · rw [raise_of_ne eq, zero_div, zero_mul, zero_mul, add_zero, ih others]
      rfl

/-- In an interval without length nothing is left of the first function. -/
lemma intervalBasis_zeros (empty : knot t (l + 1) = knot t l) (j : Nat) :
    intervalBasis t x l (j + 1) = replicate (j + 2) 0 := by
  have zero : (Scalar.ofNat 0 : ℚ) = 0 := rfl
  induction j with
  | zero =>
    have base : intervalBasis t x l 0 = [1] := rfl
    rw [intervalBasis, base, raise_of_eq (by simpa using empty)]
    rfl
  | succ j ih => rw [intervalBasis, ih, zero, raise_zeros (by simp), length_replicate]

/-- At the upper bound of an accepted fit the last basis function is 1 and all others are 0, unless
there is an inner knot at that bound and the degree is positive: then all of them are 0. -/
theorem basisRow_upper (accepted : Accepted a b ts) (knots : allKnots degree a b ts = t)
    (ordered : a < b) :
    (degree = 0 ∨ b ∉ ts → basisRow t degree b = replicate (basisSize t degree - 1) 0 ++ [1]) ∧
    (degree ≠ 0 → b ∈ ts → basisRow t degree b = replicate (basisSize t degree) 0) := by
  have enclosed := knots ▸ accepted.enclosed degree
  have wide := enclosed.degree_lt
  have long := enclosed.length_eq
  have eq := basisRow_eq enclosed.interval_upper (by omega) (by omega)
  rw [Nat.sub_self, replicate_zero, append_nil] at eq
  have right : ∀ m, basisSize t degree - 1 < m → m ≤ basisSize t degree - 1 + degree →
      knot t m = b := fun m after before => enclosed.knot_last (by omega) (by omega)
  have top := enclosed.knot_eq_upper_iff ordered
  refine ⟨?_, ?_⟩
  · rintro (rfl | free)
    · exact eq
    · have short : knot t (basisSize t degree - 1) < b :=
        lt_of_le_of_ne (enclosed.knot_le (by omega)) (mt top.mp free)
      rw [eq, intervalBasis_shift (fun m le => (enclosed.knot_mono le (by omega)).trans_lt short)
        right (by omega), ← append_assoc, replicate_append_replicate]
      congr 2
      omega
  · intro positive mem
    obtain ⟨j, rfl⟩ : ∃ j, degree = j + 1 := ⟨degree - 1, by omega⟩
    have empty : knot t (basisSize t (j + 1) - 1 + 1) = knot t (basisSize t (j + 1) - 1) := by
      rw [top.mpr mem, right _ (by omega) (by omega)]
    rw [eq, intervalBasis_zeros empty, replicate_append_replicate]
    congr 1
    omega

/-- A single inner knot below the upper bound. -/
theorem basisRow_upper_single : basisRow [0, 0, 0, 1, 3, 3, 3] 2 3 = [0, 0, 0, (1 : ℚ)] := by
  have accepted : Accepted (0 : ℚ) 3 [1] := accepted_iff.mpr (by decide)
  exact (basisRow_upper accepted (by cbv) (by decide)).1 (.inr (by decide))

end ModelFormula.Spline
