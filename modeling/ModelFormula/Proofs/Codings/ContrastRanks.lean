import Mathlib
import ModelFormula.Contrast

/-!
# Contrasts lose nothing but the intercept

Without the intercept, a contrast matrix is the unit matrix with a further constant row. Behind a
column of ones its determinant is an entry that is never zero, so with the ones the columns span
what the contrast with the intercept spans.
-/
namespace ModelFormula

open List

variable {n : Nat} {levels : List Datum} {c : Contrast}

/-- The contrast matrix has these entries, as numbers of its own sort, and a label for each column. -/
structure ContrastMatrix.Has {n k : Nat} (c : ContrastMatrix) (entry : Fin n → Fin k → ℤ) : Prop where
  rows : c.rows = List.ofFn fun r => List.ofFn fun j =>
    Block.convert c.matrix.cellType (.int (entry r j))
  width : c.width = k
  labels : c.labels.length = k

namespace Contrast

/-- A unit matrix with a further row. -/
def entries (i : Fin (n + 1)) (e : ℤ) : Fin (n + 1) → Fin n → ℤ :=
  i.insertNth (fun _ => e) fun k j => if j = k then 1 else 0

def withOnes (entry : Fin (n + 1) → Fin n → ℤ) (r : Fin (n + 1)) : Fin (n + 1) → ℤ :=
  Fin.cons 1 (entry r)

/-! ### Determinants -/

lemma det_withOnes (i : Fin (n + 1)) (e : ℤ) :
    (Matrix.of (withOnes (entries i e))).det = (-1) ^ (i : Nat) * (1 - n * e) := by
  have cleared := Matrix.det_updateRow_sum (Matrix.of (withOnes (entries i e))) i
    (i.insertNth 1 fun _ => -e)
  have row : ∑ k, (i.insertNth (1 : ℤ) fun _ => -e : Fin (n + 1) → ℤ) k •
      Matrix.of (withOnes (entries i e)) k = Fin.cons (1 - n * e) 0 := by
    funext j
    rw [Fin.sum_univ_succAbove _ i]
    refine Fin.cases ?_ (fun j => ?_) j
    · simp [withOnes, sub_eq_add_neg]
    · simp [withOnes, entries]
  rw [row, Fin.insertNth_apply_same, one_smul] at cleared
  -- only the first entry of the row is left, and its minor is the unit matrix
  have minor : (Matrix.of (withOnes (entries i e))).submatrix i.succAbove Fin.succ = 1 := by
    ext k j
    simp [withOnes, entries, Matrix.one_apply, eq_comm]
  rw [← cleared, Matrix.det_succ_row _ i, Fin.sum_univ_succ, Finset.sum_eq_zero]
  · simp [Matrix.submatrix_updateRow_succAbove, minor]
  · simp

/-- What the columns of a matrix span. -/
def columnSpace {k : Nat} (entry : Fin n → Fin k → ℤ) : Submodule ℚ (Fin n → ℚ) :=
  Submodule.span ℚ (Set.range fun j r => (entry r j : ℚ))

lemma columnSpace_of_det (invertible : (Matrix.of entry).det ≠ 0) : columnSpace entry = ⊤ := by
  let A := (Matrix.of entry).map (Int.cast : ℤ → ℚ)
  have det : A.det = ((Matrix.of entry).det : ℚ) := (Int.cast_det _).symm
  have unit : IsUnit A := by
    rw [Matrix.isUnit_iff_isUnit_det, det, isUnit_iff_ne_zero]
    exact_mod_cast invertible
  have range := Matrix.range_mulVecLin A
  rw [LinearMap.range_eq_top.mpr (Matrix.mulVec_surjective_iff_isUnit.mpr unit)] at range
  exact range.symm

lemma sum_entries (i : Fin (n + 1)) (j : Fin n) : ∑ r, entries i (-1) r j = 0 := by
  rw [Fin.sum_univ_succAbove _ i]
  simp [entries]

/-! ### Codes -/

lemma unitRows_eq (n : Nat) :
    unitRows n = List.ofFn fun r : Fin n => List.ofFn fun j => if j = r then (1 : ℤ) else 0 := by
  apply ext_getElem (by simp [unitRows])
  intro r _ _
  apply ext_getElem <;> simp [unitRows, unitRow, Fin.ext_iff]

lemma unitRowsWith_eq (i : Fin (n + 1)) (e : ℤ) :
    unitRowsWith n i e = List.ofFn fun r => List.ofFn (entries i e r) := by
  have front : ((unitRows n).take i).length = i := by simp [unitRows]; omega
  apply List.ext_getElem (by simp [unitRowsWith, unitRows]; omega)
  intro r _ inside
  rw [List.length_ofFn] at inside
  simp only [unitRowsWith, List.getElem_ofFn]
  obtain same | ⟨k, other⟩ := Fin.eq_self_or_eq_succAbove i ⟨r, inside⟩
  · obtain rfl : r = i := congrArg Fin.val same
    simp [List.getElem_append_right front.le, front, entries]
  · have row : unitRow n k = List.ofFn (entries i e ⟨r, inside⟩) := by
      rw [other]
      apply List.ext_getElem <;> simp [unitRow, entries, Fin.ext_iff]
    have value := congrArg Fin.val other
    rw [← row]
    -- the unit rows behind the further one have moved by one place
    rcases lt_or_ge (k : Nat) i with before | behind
    · obtain rfl : r = k := by simpa [Fin.succAbove, Fin.lt_def, before] using value
      rw [List.getElem_append_left (front.symm ▸ before)]
      simp [unitRows]
    · obtain rfl : r = k + 1 := by simpa [Fin.succAbove, Fin.lt_def, behind.not_gt] using value
      have back : (k : Nat) + 1 - i = (k - i) + 1 := Nat.succ_sub behind
      rw [List.getElem_append_right (by omega)]
      simp only [front, back, List.getElem_cons_succ, List.getElem_drop]
      simp [unitRows, behind]

/-- The contrast singles out the level at the place, by default the first or, in sum coding, the last. -/
def Marks (levels : List Datum) (i : Nat) : Contrast → Prop
  | treatment (.level .null) => i = 0
  | sum (.level .null) => i + 1 = levels.length
  | treatment (.level r) | sum (.level r) => ∃ l, levels[i]? = some l ∧ (l == r) = true
  | treatment (.foreign _ _) | sum (.foreign _ _) => False

def place (levels : List Datum) : Contrast → Except Fault Nat
  | treatment r => referenceIndex r levels
  | sum o => omittedIndex o levels

/-- The entries in the row of that level. -/
def special : Contrast → ℤ
  | treatment _ => 0
  | sum _ => -1

lemma exists_place (long : levels.length = n + 1) (marks : c.Marks levels i) :
    ∃ i : Fin (n + 1), c.place levels = .ok i ∧ c.Marks levels i := by
  have found {r : Datum} (same : ∃ l, levels[i]? = some l ∧ l == r) : ∃ i : Fin (n + 1),
      levels.findIdx? (· == r) = some i ∧ ∃ l, levels[i]? = some l ∧ l == r := by
    obtain ⟨l, item, same⟩ := same
    have some : (levels.findIdx? (· == r)).isSome := by
      rw [findIdx?_isSome]
      exact any_eq_true.mpr ⟨l, mem_of_getElem? item, same⟩
    obtain ⟨k, found⟩ := Option.isSome_iff_exists.mp some
    obtain ⟨inside, same, _⟩ := findIdx?_eq_some_iff_getElem.mp found
    exact ⟨⟨k, long ▸ inside⟩, found, _, getElem?_eq_getElem inside, same⟩
  unfold Marks at marks
  split at marks
  · exact ⟨0, rfl, rfl⟩
  · exact ⟨Fin.last n, by simp [place, omittedIndex, long], by simp [Marks, long]⟩
  · obtain ⟨k, first, marks⟩ := found marks
    exact ⟨k, by simp [place, referenceIndex, first], by simpa [Marks] using marks⟩
  · obtain ⟨k, first, marks⟩ := found marks
    exact ⟨k, by simp [place, omittedIndex, first], by simpa [Marks] using marks⟩
  all_goals exact marks.elim

lemma code_reduced {i : Fin (n + 1)} (long : levels.length = n + 1)
    (placed : c.place levels = .ok i) :
    ∃ reduced, c.code false levels = .ok reduced ∧ reduced.Has (entries i c.special) ∧
      reduced.labels = (levels.eraseIdx i).map Datum.plain := by
  have some : levels.isEmpty = false := by cases levels <;> simp_all
  have few : ((levels.eraseIdx i).map Datum.plain).length = n := by
    simp [length_eraseIdx, long, Nat.lt_succ_iff.mp i.isLt]
  cases c with
  | treatment r =>
    have index : referenceIndex r levels = .ok i := placed
    refine ⟨_, by simp only [code, treatmentReduced, index, some, long]; rfl, ⟨?_, rfl, few⟩, rfl⟩
    simp [ContrastMatrix.rows, Block.convertTo, Block.ofInts, Grid.map, Matrix.map, unitRowsWith_eq,
      special, map_ofFn, Function.comp_def]
  | sum o =>
    have index : omittedIndex o levels = .ok i := placed
    refine ⟨_, by simp only [code, sumReduced, index, some, long]; rfl, ⟨?_, rfl, few⟩, rfl⟩
    simp [ContrastMatrix.rows, Block.ofInts, unitRowsWith_eq, special, map_ofFn,
      Function.comp_def, Block.convert, Datum.int?]

/-- The entries of the contrast with the intercept. -/
def fullEntries (i : Fin (n + 1)) : Contrast → Fin (n + 1) → Fin (n + 1) → ℤ
  | treatment _, r, j => if j = r then 1 else 0
  | sum _, r, j => withOnes (entries i (-1)) r j

lemma code_full {i : Fin (n + 1)} (long : levels.length = n + 1)
    (placed : c.place levels = .ok i) :
    ∃ full, c.code true levels = .ok full ∧ full.Has (c.fullEntries i) := by
  have some : levels.isEmpty = false := by cases levels <;> simp_all
  cases c with
  | treatment r =>
    refine ⟨_, rfl, ?_, long, by simp [treatmentFull, labelsOf, long]⟩
    simp only [treatmentFull, ContrastMatrix.rows, Block.ofInts, long, unitRows_eq, map_ofFn,
      Function.comp_def, fullEntries]
    rfl
  | sum o =>
    have index : omittedIndex o levels = .ok i := placed
    refine ⟨_, by simp only [code, sumFull, index, some, long]; rfl, ?_, rfl, ?_⟩
    · simp [ContrastMatrix.rows, Block.ofInts, unitRowsWith_eq, fullEntries, withOnes, map_ofFn,
        Function.comp_def, Block.convert, Datum.int?, ofFn_succ]
    · simp [labelsOf, withoutIndex, length_eraseIdx, long, Nat.lt_succ_iff.mp i.isLt]

/-- The determinant up to its sign. -/
def volume (n : Nat) : Contrast → ℤ
  | treatment _ => 1
  | sum _ => n

/-- Behind a column of ones, the contrast matrix without the intercept has the determinant one in
treatment coding and the number of levels in sum coding, up to the sign. So it spans what the contrast
matrix with the intercept spans, which is invertible too. The columns of sum coding sum to zero. Each
column has a label, without the intercept those of the levels other than the one singled out. -/
theorem code_invertible (c : Contrast) (long : levels.length = n + 1)
    (chosen : ∃ i, c.Marks levels i) :
    ∃ i : Fin (n + 1), c.Marks levels i ∧ ∃ reduced full, ∃ entry : Fin (n + 1) → Fin n → ℤ,
      ∃ square : Fin (n + 1) → Fin (n + 1) → ℤ,
        c.code false levels = .ok reduced ∧ reduced.Has entry ∧
        c.code true levels = .ok full ∧ full.Has square ∧
        reduced.labels = (levels.eraseIdx i).map Datum.plain ∧
        (Matrix.of (withOnes entry)).det = (-1) ^ (i : Nat) * c.volume (n + 1) ∧
        (Matrix.of square).det ≠ 0 ∧ columnSpace (withOnes entry) = columnSpace square ∧
        (c.special = -1 → ∀ j, ∑ r, entry r j = 0) := by
  obtain ⟨_, given⟩ := chosen
  obtain ⟨i, placed, marks⟩ := exists_place long given
  obtain ⟨reduced, coded, has, labels⟩ := code_reduced long placed
  obtain ⟨full, coded', has'⟩ := code_full long placed
  have det : (Matrix.of (withOnes (entries i c.special))).det = (-1) ^ (i : Nat) * c.volume (n + 1) := by
    rw [det_withOnes]
    cases c <;> simp [special, volume, add_comm]
  have ones : (Matrix.of (withOnes (entries i c.special))).det ≠ 0 := by
    rw [det]
    cases c with
    | treatment r => simp [volume]
    | sum o => exact mul_ne_zero (by simp) (by simp [volume]; omega)
  have own : (Matrix.of (c.fullEntries i)).det ≠ 0 := by
    cases c with
    | treatment r =>
      have unit : Matrix.of ((treatment r).fullEntries i) = 1 := by
        ext r j
        simp [fullEntries, Matrix.one_apply, eq_comm]
      simp [unit]
    | sum o => exact ones
  refine ⟨i, marks, reduced, full, _, _, coded, has, coded', has', labels, det, own, ?_, ?_⟩
  · rw [columnSpace_of_det ones, columnSpace_of_det own]
  · intro special j
    rw [special]
    exact sum_entries i j

/-- Three levels in an order of their own. -/
def sizes : List Datum := [.text "small", .text "large", .text "huge"]

theorem code_invertible_sizes : (sum (.level (.text "large"))).Marks sizes 1 ∧
    ∃ i : Fin 3, (sum (.level (.text "large"))).Marks sizes i ∧
      ∃ reduced, (sum (.level (.text "large"))).code false sizes = .ok reduced ∧
        reduced.labels = (sizes.eraseIdx i).map Datum.plain := by
  have marks : (sum (.level (.text "large"))).Marks sizes 1 := ⟨_, rfl, rfl⟩
  obtain ⟨i, own, reduced, _, _, _, coded, _, _, _, labels, _⟩ := code_invertible _ rfl ⟨1, marks⟩
  exact ⟨marks, i, own, reduced, coded, labels⟩

end Contrast

end ModelFormula
