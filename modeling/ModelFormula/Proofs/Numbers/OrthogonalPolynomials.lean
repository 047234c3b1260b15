import Mathlib
import ModelFormula.Proofs.Numbers.PolynomialMemory

/-!
# Orthogonal polynomials in exact numbers

The coefficients that a first column leaves behind are those of a three-term recurrence for monic
polynomials, and the columns are the values of these. Each coefficient makes the next polynomial
orthogonal to one of the last two; it is orthogonal to all earlier ones because the recurrence moves
a factor `x` to the other side of a product.
-/
namespace ModelFormula

namespace Scalar

/-- Exact numbers, in which the definitions for floating point numbers are read. -/
scoped instance exact {K : Type} [Field K] [LinearOrder K] [FloorSemiring K] : Scalar K where
  ofNat n := n
  decidableLT := inferInstance
  floor x := ⌊x⌋₊
  sum := List.sum

end Scalar

namespace Polynomial

open List

variable {K : Type} [Field K]

/-! ### The recurrence -/

section Recurrence

/-- What is remembered under an index. -/
def recalled (known : List (Nat × K)) (k : Nat) : K := (known? known k).getD 0

/-- The polynomials that remembered coefficients give, from degree 0 on; in front there is 0. -/
noncomputable def recurrence (m : Memory K) : Nat → Polynomial K
  | 0 => 0
  | 1 => 1
  | k + 2 => (.X - .C (recalled m.alpha k)) * recurrence m (k + 1) -
      .C (recalled m.norms k / recalled m.norms (k - 1)) * recurrence m k

lemma recurrence_monic (m : Memory K) (k : Nat) : (recurrence m (k + 1)).Monic ∧
    (recurrence m (k + 1)).degree = k ∧ (recurrence m k).degree < k := by
  induction k with
  | zero => simp [recurrence]
  | succ k ih =>
    obtain ⟨monic, degree, lower⟩ := ih
    have product :
        ((.X - .C (recalled m.alpha k)) * recurrence m (k + 1)).degree = (k + 1 : Nat) := by
      rw [Polynomial.degree_mul, Polynomial.degree_X_sub_C, degree, add_comm]
      rfl
    have next : (k : WithBot Nat) < (k + 1 : Nat) := by exact_mod_cast Nat.lt_succ_self k
    have smaller : (.C (recalled m.norms k / recalled m.norms (k - 1)) * recurrence m k).degree <
        ((.X - .C (recalled m.alpha k)) * recurrence m (k + 1)).degree := by
      rw [product, ← Polynomial.smul_eq_C_mul]
      exact (Polynomial.degree_smul_le _ _).trans_lt (lower.trans next)
    refine ⟨((Polynomial.monic_X_sub_C _).mul monic).sub_of_left smaller, ?_, degree ▸ next⟩
    rw [recurrence, Polynomial.degree_sub_eq_left_of_degree_lt smaller, product]

variable (form : Polynomial K →ₗ[K] K)

lemma form_C_mul (a : K) (p : Polynomial K) : form (.C a * p) = a * form p := by
  rw [← Polynomial.smul_eq_C_mul, map_smul, smul_eq_mul]

/-- The recurrence under a linear form, in a product with another polynomial. -/
lemma form_recurrence (m : Memory K) (k : Nat) (p : Polynomial K) :
    form (recurrence m (k + 2) * p) = form (.X * recurrence m (k + 1) * p) -
      recalled m.alpha k * form (recurrence m (k + 1) * p) -
      recalled m.norms k / recalled m.norms (k - 1) * form (recurrence m k * p) := by
  rw [recurrence, ← form_C_mul, ← form_C_mul, ← map_sub, ← map_sub]
  congr 1
  ring

/-- Where the coefficients are the means and the norms under a linear form, the polynomials are
orthogonal to each other. -/
lemma recurrence_orthogonal {m : Memory K} (norms : ∀ k ≤ degree, recalled m.norms k ≠ 0 ∧
      recalled m.norms k = form (recurrence m (k + 1) * recurrence m (k + 1)))
    (means : ∀ k < degree, recalled m.alpha k * recalled m.norms k =
      form (.X * recurrence m (k + 1) * recurrence m (k + 1))) (j : Nat) (bound : j ≤ degree + 1)
    (i : Nat) (less : i < j) : form (recurrence m j * recurrence m i) = 0 := by
  induction j using Nat.strong_induction_on generalizing i with
  | _ j ih =>
    match j, i with
    | _, 0 => simp [recurrence]
    | k + 2, i + 1 =>
      have last := ih (k + 1) (by omega) (by omega)
      have own := (norms k (by omega)).2
      rw [form_recurrence]
      rcases Nat.lt_or_eq_of_le (by omega : i ≤ k) with below | rfl
      · -- the factor goes to the earlier polynomial, whose recurrence stays below the last one
        have moved : form (.X * recurrence m (k + 1) * recurrence m (i + 1)) =
            form (recurrence m (k + 1) * recurrence m (i + 2)) := by
          rw [mul_comm _ (recurrence m (i + 2)), form_recurrence,
            mul_comm (recurrence m (i + 1)), mul_comm (recurrence m i), last (i + 1) (by omega),
            last i (by omega), mul_right_comm]
          ring_nf
        rw [moved, last (i + 1) (by omega), mul_zero, sub_zero, sub_eq_zero]
        obtain rfl | less := Nat.eq_or_lt_of_le below
        · rw [← own, ← (norms i (by omega)).2]
          exact (div_mul_cancel₀ _ (norms i (by omega)).1).symm
        · rw [last (i + 2) (by omega), ih k (by omega) (by omega) (i + 1) (by omega), mul_zero]
      · rw [← means i (by omega), mul_comm (recurrence m i), last i (by omega), ← own]
        ring

end Recurrence

/-! ### Sums over the points -/

/-- The values of the polynomial of a degree that remembered coefficients give. -/
noncomputable def valuesOf (xs : List K) (m : Memory K) (k : Nat) : List K :=
  xs.map (recurrence m (k + 1)).eval

/-- The sum of the products of two columns. -/
def dot (p q : List K) : K := (zipWith (· * ·) p q).sum

/-- The sum of the values of a polynomial. -/
noncomputable def sumAt (xs : List K) : Polynomial K →ₗ[K] K := (xs.map Polynomial.leval).sum

lemma sumAt_eq (xs : List K) (p : Polynomial K) : sumAt xs p = (xs.map p.eval).sum := by
  induction xs with
  | nil => simp [sumAt]
  | cons x xs ih => simpa [sumAt] using ih

lemma dot_valuesOf (xs : List K) (m : Memory K) (i j : Nat) :
    dot (valuesOf xs m i) (valuesOf xs m j) =
      sumAt xs (recurrence m (i + 1) * recurrence m (j + 1)) := by
  simp [dot, valuesOf, sumAt_eq, zipWith_map_left, zipWith_map_right, zipWith_self]

lemma dot_div (p q : List K) (r s : K) :
    dot (p.map (· / r)) (q.map (· / s)) = dot p q / (r * s) := by
  induction p generalizing q with
  | nil => simp [dot]
  | cons a p ih =>
    cases q with
    | nil => simp [dot]
    | cons b q =>
      simp only [dot, map_cons, zipWith_cons_cons, sum_cons] at ih ⊢
      rw [ih, add_div, div_mul_div_comm]

lemma sum_valuesOf (xs : List K) (m : Memory K) (k : Nat) :
    (valuesOf xs m k).sum = dot (valuesOf xs m 0) (valuesOf xs m k) := by
  rw [dot_valuesOf, recurrence, one_mul, sumAt_eq]
  rfl

open scoped Scalar

variable [LinearOrder K] [FloorSemiring K] {xs : List K} {degree : Nat} {m : Memory K}

/-! ### The columns -/

lemma next_of_knows (knows : Knows degree m) (bound : k < degree) :
    next sum xs k (if k = 0 then none else some (valuesOf xs m (k - 1))) (valuesOf xs m k) m =
      (valuesOf xs m (k + 1), m) := by
  obtain ⟨a, alpha⟩ := knows.alpha k bound
  obtain ⟨n, norm⟩ := knows.norms k (by omega)
  obtain ⟨n', norm'⟩ := knows.norms (k - 1) (by omega)
  cases k with
  | zero =>
    rw [if_pos rfl, next_none_of_known _ alpha]
    simp only [valuesOf, zipWith_map_right, zipWith_self]
    simp [recurrence, recalled, alpha]
  | succ k =>
    rw [if_neg (by omega), next_some_of_known _ alpha norm norm']
    simp only [valuesOf, zipWith_map_right, zipWith_self, zipWith_map_left]
    rw [Nat.add_sub_cancel] at norm'
    rw [recurrence.eq_3 m (k + 1)]
    simp [recalled, alpha, norm, norm']

lemma following_of_knows (knows : Knows degree m) (bound : k + n ≤ degree) :
    (following sum xs n k (if k = 0 then none else some (valuesOf xs m (k - 1)))
      (valuesOf xs m k) m).1 = (range' (k + 1) n).map (valuesOf xs m) := by
  induction n generalizing k with
  | zero => rfl
  | succ n ih =>
    simp only [Polynomial.following, next_of_knows knows (by omega : k < degree)]
    exact congrArg (_ :: ·) (ih (k := k + 1) (by omega))

/-- Columns that are computed again are the values of the polynomials that are remembered. -/
lemma monic_again (root : K → K) (xs : List K) (degree : Nat) :
    let m := (scaled root sum xs degree {}).2
    monic sum xs degree m = ((monic sum xs degree {}).1, m) ∧
      (monic sum xs degree {}).1 = (range (degree + 1)).map (valuesOf xs m) := by
  intro m
  have knows := scaled_knows root sum xs degree {}
  have above : (monic sum xs degree {}).2.Le m :=
    (settles_allNorms (monic sum xs degree {}).1 _).grows
  have again := (settles_monic sum xs degree {}).again _ above
  have first : valuesOf xs m 0 = xs.map fun _ => Scalar.ofNat 1 := by
    have one : (Scalar.ofNat 1 : K) = 1 := Nat.cast_one
    simp [valuesOf, recurrence, one]
  refine ⟨again, ?_⟩
  rw [← congrArg Prod.fst again, range_eq_range', range'_succ, map_cons, first,
    ← following_of_knows knows (by omega), first]
  rfl

lemma scaled_columns (root : K → K) (xs : List K) (degree : Nat) :
    let m := (scaled root sum xs degree {}).2
    (scaled root sum xs degree {}).1 = (range' 1 degree).map fun k =>
      (valuesOf xs m k).map (· / root (recalled m.norms k)) := by
  intro m
  have knows : Knows degree m := scaled_knows root sum xs degree {}
  obtain ⟨again, columns⟩ := monic_again root xs degree
  have norms : (range (degree + 1)).filterMap (known? m.norms) =
      (range (degree + 1)).map (recalled m.norms) := by
    rw [← filterMap_eq_map]
    refine filterMap_congr fun k mem => ?_
    obtain ⟨n, found⟩ := knows.norms k (by simpa [Nat.lt_succ_iff] using mem)
    simp [recalled, found]
  rw [← scaled_again, scaled_eq, again]
  change divided root _ (allNorms (monic sum xs degree {}).1 m).1 = _
  rw [allNorms_of_known knows (length_monic sum xs degree {}), norms, columns, divided,
    zipWith_map, zipWith_self, ← map_drop, range_eq_range', range'_succ, drop_one, tail_cons]

/-! ### What is remembered -/

/-- The columns, by degree, of which a memory holds the means and the sums of squares. -/
structure Right (xs : List K) (columns : Nat → List K) (m : Memory K) : Prop where
  alpha : ∀ k a, known? m.alpha k = some a →
    a = (zipWith (· * ·) xs (squares (columns k))).sum / (squares (columns k)).sum
  norms : ∀ k n, known? m.norms k = some n → n = (squares (columns k)).sum

omit [LinearOrder K] [FloorSemiring K] [Field K] in
lemma known?_append_one {known : List (Nat × K)} {a b : K}
    (found : known? (known ++ [(k, b)]) i = some a) : known? known i = some a ∨ i = k ∧ b = a := by
  rw [known?, find?_append] at found
  cases old : known.find? (·.1 == i) with
  | some p => exact .inl (by simpa [known?, old] using found)
  | none =>
    simp only [old, Option.none_or, find?_singleton] at found
    split at found
    next eq => exact .inr ⟨(by simpa using eq : k = i).symm, by simpa using found⟩
    next => cases found

variable {columns : Nat → List K}

lemma Right.alphaOf (right : Right xs columns m) (k : Nat) :
    Right xs columns (alphaOf List.sum xs (columns k) k m).2 := by
  unfold Polynomial.alphaOf
  split
  · exact right
  · refine ⟨fun i a found => ?_, right.norms⟩
    obtain old | ⟨rfl, rfl⟩ := known?_append_one found
    · exact right.alpha i a old
    · rfl

lemma Right.normOf (right : Right xs columns m) (k : Nat) :
    Right xs columns (normOf (columns k) k m).2 := by
  unfold Polynomial.normOf
  split
  · exact right
  · refine ⟨right.alpha, fun i n found => ?_⟩
    obtain old | ⟨rfl, rfl⟩ := known?_append_one found
    · exact right.norms i n old
    · rfl

/-- Following the recurrence from one column on, only right coefficients are remembered. -/
lemma Right.following (right : Right xs columns m) {before : Option (List K)}
    (earlier : before = none ∨ before = some (columns (k - 1)))
    (agree : ∀ j q, (following sum xs n k before (columns k) m).1[j]? = some q →
      columns (k + 1 + j) = q) :
    Right xs columns (following sum xs n k before (columns k) m).2 := by
  induction n generalizing k before m with
  | zero => exact right
  | succ n ih =>
    have stays : Right xs columns (next sum xs k before (columns k) m).2 := by
      obtain rfl | rfl := earlier
      · exact right.alphaOf k
      · exact ((right.alphaOf k).normOf k).normOf (k - 1)
    simp only [Polynomial.following] at agree ⊢
    have first : columns (k + 1) = (next sum xs k before (columns k) m).1 := agree 0 _ rfl
    rw [← first] at agree ⊢
    refine ih stays (.inr rfl) fun j q found => ?_
    rw [← agree (j + 1) q (by simpa using found)]
    congr 1
    omega

lemma Right.addNorms (right : Right xs columns m) (items : List (List K × Nat)) (ns : List K)
    (agree : ∀ item ∈ items, columns item.2 = item.1) :
    Right xs columns (items.foldl addNorm (ns, m)).2 := by
  induction items generalizing ns m with
  | nil => exact right
  | cons item items ih =>
    obtain ⟨own, others⟩ := forall_mem_cons.mp agree
    exact ih (own ▸ right.normOf item.2) _ others

/-- A first call remembers the means and the sums of squares of its own columns. -/
lemma right_scaled (root : K → K) (xs : List K) (degree : Nat) :
    Right xs (valuesOf xs (scaled root sum xs degree {}).2) (scaled root sum xs degree {}).2 := by
  have columns := (monic_again root xs degree).2
  generalize valuesOf xs (scaled root sum xs degree {}).2 = values at columns ⊢
  have column {k : Nat} {p : List K} (found : (monic sum xs degree {}).1[k]? = some p) :
      values k = p := by
    rw [columns, getElem?_map, Option.map_eq_some_iff] at found
    obtain ⟨_, place, rfl⟩ := found
    obtain ⟨_, rfl⟩ := List.getElem?_eq_some_iff.mp place
    rw [getElem_range]
  have first := column (k := 0) rfl
  have nothing : Right xs values {} := ⟨by simp [known?], by simp [known?]⟩
  have monic : Right xs values (monic sum xs degree {}).2 := by
    rw [Polynomial.monic, ← first]
    refine nothing.following (.inl rfl) fun j q found => column ?_
    rw [first] at found
    rw [show 0 + 1 + j = j + 1 by omega]
    exact found
  refine monic.addNorms (Polynomial.monic sum xs degree {}).1.zipIdx [] ?_
  rintro ⟨p, k⟩ mem
  exact column (mk_mem_zipIdx_iff_getElem?.mp mem)

/-! ### Orthogonality -/

lemma sum_squares (xs : List K) (m : Memory K) (k : Nat) : (squares (valuesOf xs m k)).sum =
    sumAt xs (recurrence m (k + 1) * recurrence m (k + 1)) := by
  simp [squares, valuesOf, sumAt_eq, Function.comp_def]

lemma sum_weighted (xs : List K) (m : Memory K) (k : Nat) :
    (zipWith (· * ·) xs (squares (valuesOf xs m k))).sum =
      sumAt xs (.X * recurrence m (k + 1) * recurrence m (k + 1)) := by
  simp [squares, valuesOf, sumAt_eq, zipWith_map_right, zipWith_self, mul_assoc]

/-- The memory of a first call without a norm that is zero. -/
structure Sound (xs : List K) (degree : Nat) (m : Memory K) : Prop where
  norms : ∀ k ≤ degree, recalled m.norms k ≠ 0 ∧
    known? m.norms k = some (dot (valuesOf xs m k) (valuesOf xs m k))
  apart : ∀ i j, i < j → j ≤ degree → dot (valuesOf xs m i) (valuesOf xs m j) = 0

lemma sound_scaled (root : K → K) (nonzero : ∀ k,
    known? (scaled root sum xs degree {}).2.norms k ≠ some 0) :
    Sound xs degree (scaled root sum xs degree {}).2 := by
  have right := right_scaled root xs degree
  have knows := scaled_knows root sum xs degree {}
  generalize (scaled root sum xs degree {}).2 = m at *
  have norms : ∀ k ≤ degree, recalled m.norms k ≠ 0 ∧
      recalled m.norms k = sumAt xs (recurrence m (k + 1) * recurrence m (k + 1)) ∧
      known? m.norms k = some (recalled m.norms k) := by
    intro k small
    obtain ⟨n, found⟩ := knows.norms k small
    have value := right.norms k n found
    rw [sum_squares] at value
    have stored : recalled m.norms k = n := by simp [recalled, found]
    refine ⟨?_, stored.trans value, stored.symm ▸ found⟩
    rintro zero
    exact nonzero k (by rw [found, ← stored, zero])
  have means : ∀ k < degree, recalled m.alpha k * recalled m.norms k =
      sumAt xs (.X * recurrence m (k + 1) * recurrence m (k + 1)) := by
    intro k small
    obtain ⟨a, found⟩ := knows.alpha k small
    have value := right.alpha k a found
    rw [sum_weighted, sum_squares, ← (norms k small.le).2.1] at value
    simp only [recalled, found, Option.getD_some] at value ⊢
    rw [value]
    exact div_mul_cancel₀ _ (norms k small.le).1
  constructor
  · intro k small
    rw [dot_valuesOf, ← (norms k small).2.1]
    exact ⟨(norms k small).1, (norms k small).2.2⟩
  · intro i j less small
    rw [dot_valuesOf, mul_comm]
    exact recurrence_orthogonal (sumAt xs)
      (fun k small => ⟨(norms k small).1, (norms k small).2.1⟩) means _ (by omega) _ (by omega)

/-- The columns of a first call without a norm that is zero are orthogonal to each other. They are
the values of monic polynomials that the remembered coefficients give, and the remembered norms are
their sums of squares. Scaled by exact roots they are orthonormal, and orthogonal to the constant. -/
theorem scaled_orthonormal (xs : List K) (degree : Nat) (root : K → K)
    (nonzero : ∀ k, known? (scaled root List.sum xs degree {}).2.norms k ≠ some 0) :
    let ps := (monic List.sum xs degree {}).1
    let m := (scaled root List.sum xs degree {}).2
    let cs := (scaled root List.sum xs degree {}).1
    ps.length = degree + 1 ∧ ps.Pairwise (dot · · = 0) ∧
      (∀ k p, ps[k]? = some p → known? m.norms k = some (dot p p) ∧
        (recurrence m (k + 1)).Monic ∧ (recurrence m (k + 1)).natDegree = k ∧
        p = xs.map (recurrence m (k + 1)).eval) ∧
      cs.length = degree ∧
      ((∀ k n, known? m.norms k = some n → root n * root n = n) →
        cs.Pairwise (dot · · = 0) ∧ ∀ c ∈ cs, dot c c = 1 ∧ c.sum = 0) := by
  intro ps m cs
  have sound : Sound xs degree m := sound_scaled root nonzero
  have columns : ps = (range (degree + 1)).map (valuesOf xs m) := (monic_again root xs degree).2
  have results : cs = _ := scaled_columns root xs degree
  refine ⟨by simp [columns], ?_, ?_, by simp [results], fun roots => ⟨?_, ?_⟩⟩
  · rw [columns, pairwise_map, range_eq_range']
    refine (pairwise_lt_range' 1).imp_of_mem fun {i j} _ member less => ?_
    have small := mem_range'_1.mp member
    exact sound.apart i j less (by omega)
  · intro k p found
    simp only [columns, getElem?_map, Option.map_eq_some_iff] at found
    obtain ⟨k', place, rfl⟩ := found
    obtain ⟨small, rfl⟩ := List.getElem?_eq_some_iff.mp place
    rw [length_range] at small
    rw [getElem_range]
    obtain ⟨monic, exactly, _⟩ := recurrence_monic m k
    exact ⟨(sound.norms k (by omega)).2, monic,
      Polynomial.natDegree_eq_of_degree_eq_some exactly, rfl⟩
  · rw [results, pairwise_map]
    refine (pairwise_lt_range' 1).imp_of_mem fun {i j} _ member less => ?_
    have small := mem_range'_1.mp member
    rw [dot_div, sound.apart i j less (by omega), zero_div]
  · intro c member
    rw [results, mem_map] at member
    obtain ⟨k, member, rfl⟩ := member
    have small := mem_range'_1.mp member
    obtain ⟨positive, known⟩ := sound.norms k (by omega)
    have stored : recalled m.norms k = dot (valuesOf xs m k) (valuesOf xs m k) := by
      simp [recalled, known]
    constructor
    · rw [dot_div, ← stored, roots k _ (stored ▸ known), div_self positive]
    · simp only [div_eq_mul_inv]
      rw [sum_map_mul_right, map_id', sum_valuesOf, sound.apart 0 k (by omega) (by omega), zero_mul]

/-- Four points whose norms 4, 100 and 2304 are squares. -/
theorem scaled_orthonormal_four :
    let root : ℚ → ℚ := fun n => if n = 4 then 2 else if n = 100 then 10 else 48
    let cs := (scaled root List.sum [-7, -1, 1, 7] 2 {}).1
    cs = [[-7 / 10, -1 / 10, 1 / 10, 7 / 10], [1 / 2, -1 / 2, -1 / 2, 1 / 2]] ∧
      cs.Pairwise (dot · · = 0) ∧ ∀ c ∈ cs, dot c c = 1 ∧ c.sum = 0 := by
  intro root cs
  have memory : (scaled root List.sum [-7, -1, 1, 7] 2 {}).2.norms =
      [(1, 100), (0, 4), (2, 2304)] := by
    decide +kernel
  have norms (k : Nat) (n : ℚ) (known : known? [(1, 100), (0, 4), (2, 2304)] k = some n) :
      n ∈ [100, 4, 2304] := by
    obtain ⟨found, member, rfl⟩ := Option.map_eq_some_iff.mp known
    exact mem_map_of_mem (f := Prod.snd) (mem_of_find?_eq_some member)
  refine ⟨by decide +kernel, (scaled_orthonormal [-7, -1, 1, 7] 2 root ?_).2.2.2.2 ?_⟩
  · intro k
    rw [memory]
    exact fun zero => absurd (norms k 0 zero) (by decide +kernel)
  · intro k n known
    rw [memory] at known
    have every : ∀ n ∈ [100, 4, 2304], root n * root n = n := by decide +kernel
    exact every n (norms k n known)

end Polynomial

end ModelFormula
