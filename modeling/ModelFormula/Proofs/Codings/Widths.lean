import Mathlib
import ModelFormula.Design.Matrix
import ModelFormula.Proofs.Algebra.Run

/-!
# Widths of blocks

How many columns a block has after coding, multiplying and stacking. Coding gives one column for
each level or, without the intercept, one less; products multiply the numbers of columns; stacking
adds them.
-/
namespace ModelFormula

open List DesignMatrix Block

variable {b : Block}

/-- Rows of numbers, so many of them and of that width. -/
structure Wide (height width : Nat) (b : Block) : Prop where
  numeric : b.cellType.isNumeric
  rows : ∃ m : Matrix Datum, b.grid = .matrix m ∧ m.height = height ∧ m.width = width

lemma Wide.columnCount {height width : Nat} (wide : Wide height width b) :
    columnCount b = width := by
  obtain ⟨m, shape, _, rfl⟩ := wide.rows
  simp [DesignMatrix.columnCount, shape]

lemma CellType.join_isNumeric {d e : CellType} (left : d.isNumeric) (right : e.isNumeric) :
    (d.join e).isNumeric := by
  cases d <;> cases e <;> simp_all [CellType.isNumeric, CellType.join]

/-! ### Coding -/

/-- The columns of a factor with the given number of levels. -/
def codedWidth (spansIntercept : Bool) (levels : Nat) : Nat :=
  if spansIntercept then levels else levels - 1

/-- A vector is coded by one row for each cell. -/
lemma code_wide (numeric : c.matrix.cellType.isNumeric) (vector : x.grid = .vector cells)
    (coded : Levels.code c levels x = .ok b) : Wide cells.length c.width b := by
  simp only [Levels.code, bind, Except.bind] at coded
  cases searched : x.grid.cells.mapM (Levels.lowerBound levels) with
  | error fault => simp [searched] at coded
  | ok places =>
    cases found : places.mapM (Levels.row c) with
    | error fault => simp [searched, found] at coded
    | ok rows =>
      simp only [searched, found] at coded
      cases coded
      have height : rows.length = cells.length := by
        rw [← ((mapM_ok_iff _ _ _).mp found).length_eq, ← ((mapM_ok_iff _ _ _).mp searched).length_eq,
          vector]
        rfl
      refine ⟨numeric, ⟨c.width, rows⟩, ?_, height, rfl⟩
      simp [shape, vector, Grid.shape, Levels.arrange]

lemma column_values_vector (c : Column) :
    ∃ cells, c.values.grid = .vector cells ∧ cells.length = c.cells.length := by
  unfold Column.values
  split
  · exact ⟨c.cells, rfl, rfl⟩
  · exact ⟨_, rfl, by simp⟩
  · exact ⟨c.cells, rfl, rfl⟩

/-! ### Products -/

lemma Wide.convertTo (wide : Wide height width b) (d : CellType) :
    ∃ m : Matrix Datum, (b.convertTo d).matrix? = some m ∧ m.height = height ∧ m.width = width := by
  obtain ⟨m, shape, tall, broad⟩ := wide.rows
  refine ⟨m.map (convert d), ?_, ?_, broad⟩
  · simp [Block.matrix?, Block.convertTo, shape, Grid.map]
  · simpa [Matrix.height, Matrix.map] using tall

lemma Wide.interact (left : Wide height v a) (right : Wide height w b) (leftPositive : 0 < v)
    (rightPositive : 0 < w) (product : interact a b = .ok p) : Wide height (v * w) p := by
  obtain ⟨m, leftShape, leftTall, rfl⟩ := left.convertTo (a.cellType.join b.cellType)
  obtain ⟨n, rightShape, rightTall, rfl⟩ := right.convertTo (a.cellType.join b.cellType)
  have numeric := CellType.join_isNumeric left.numeric right.numeric
  -- both are rows of numbers, as many and none empty, so the product of numbers applies
  have found : numericProduct? a b = some ⟨a.cellType.join b.cellType,
      .matrix (m.productWith (mulCell (a.cellType.join b.cellType)) n)⟩ := by
    simp [numericProduct?, numeric, leftShape, rightShape, leftTall, rightTall, leftPositive,
      rightPositive, guard]
  simp only [Block.interact, found] at product
  cases product
  refine ⟨numeric, _, rfl, ?_, rfl⟩
  simp only [Matrix.height] at leftTall rightTall
  simp [Matrix.height, Matrix.productWith, leftTall, rightTall]

lemma wide_foldlM_interact (first : Wide height v a) (pos : 0 < v)
    (others : List.Forall₂ (Wide height) ws bs) (allPositive : ∀ w ∈ ws, 0 < w)
    (product : bs.foldlM interact a = .ok p) : Wide height (v * ws.prod) p := by
  induction others generalizing v a with
  | nil =>
    cases product
    simpa using first
  | @cons w b ws bs wide _ ih =>
    simp only [foldlM_cons, bind, Except.bind] at product
    cases step : interact a b with
    | error fault => simp [step] at product
    | ok q =>
      simp only [step] at product
      have wPositive : 0 < w := allPositive w mem_cons_self
      have both := first.interact wide pos wPositive step
      have rest := ih both (Nat.mul_pos pos wPositive)
        (fun w mem => allPositive w (mem_cons_of_mem _ mem)) product
      rwa [prod_cons, ← Nat.mul_assoc]

/-- Products multiply the numbers of columns. -/
lemma wide_interactAll (wide : List.Forall₂ (Wide height) ws bs) (pos : ∀ w ∈ ws, 0 < w)
    (product : interactAll bs = .ok p) : Wide height ws.prod p := by
  cases wide with
  | nil => cases product
  | cons first others =>
    rw [prod_cons]
    exact wide_foldlM_interact first (pos _ mem_cons_self) others
      (fun w mem => pos w (mem_cons_of_mem _ mem)) product

/-! ### Stacking -/

lemma stacked_width (stacked : stacked b = .ok m) : m.width = columnCount b := by
  unfold Block.stacked at stacked
  unfold columnCount
  split at stacked
  next shape => cases stacked; simp [shape, Matrix.ofVector]
  next shape => cases stacked; simp [shape]
  next shape => cases stacked; simp [shape, Matrix.ofVector]
  next => cases stacked

lemma columnCount_convertTo (b : Block) (d : CellType) :
    columnCount (b.convertTo d) = columnCount b := by
  unfold columnCount
  cases shape : b.grid <;> simp [convertTo, shape, Grid.map, Matrix.map]

lemma foldl_beside_width (m : Matrix Datum) (ms : List (Matrix Datum)) :
    (ms.foldl Matrix.beside m).width = m.width + (ms.map Matrix.width).sum := by
  induction ms generalizing m with
  | nil => simp
  | cons n ms ih => simp [ih, Matrix.beside, Nat.add_assoc]

lemma forall₂_stacked_widths {d : CellType}
    (stacked : List.Forall₂ (fun b m => stacked (b.convertTo d) = .ok m) bs ms) :
    ms.map Matrix.width = bs.map columnCount := by
  induction stacked with
  | nil => rfl
  | cons first _ ih => simp [ih, stacked_width first, columnCount_convertTo]

/-- Stacking adds the numbers of columns. -/
lemma stack_width (stacked : stack bs = .ok b) : columnCount b = (bs.map columnCount).sum := by
  simp only [stack, bind, Except.bind] at stacked
  cases mapped : bs.mapM fun b => Block.stacked (b.convertTo (Block.joinAll bs)) with
  | error fault => simp [mapped] at stacked
  | ok ms =>
    have widths := forall₂_stacked_widths ((mapM_ok_iff _ _ _).mp mapped)
    simp only [mapped] at stacked
    cases ms with
    | nil => cases stacked
    | cons m ms =>
      simp only at stacked
      split at stacked
      · cases stacked
        rw [← widths]
        simp [columnCount, foldl_beside_width]
      · cases stacked

end ModelFormula
