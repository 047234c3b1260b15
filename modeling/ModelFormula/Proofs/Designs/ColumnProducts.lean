import ModelFormula.Proofs.Calls.RowwiseValues
import ModelFormula.Proofs.Codings.Sublists
import ModelFormula.Proofs.Fits.RefittedVariables

/-!
# Columns of products

The columns of the product of several blocks are all products of one column from each block, in the
order of the choices, whether rows are multiplied at once or column by column.
-/
namespace ModelFormula

open List Value ModelFormula.Matrix

variable {i : Nat} {d e : CellType} {x : Datum} {m : Matrix Datum} {α : Type} {xs : List Block}

/-! ### Columns of matrices -/

namespace Matrix

variable {β γ : Type} {m : Matrix α} {f : α → β → γ}

/-- All rows have the width of the matrix. -/
def Rectangular (m : Matrix α) : Prop := ∀ row ∈ m.rows, row.length = m.width

instance (m : Matrix α) : Decidable m.Rectangular :=
  inferInstanceAs (Decidable (∀ row ∈ m.rows, row.length = m.width))

lemma getElem?_productRow {r : List α} {s : List β} {x : α} {y : β} (left : r[i]? = some x)
    (right : s[j]? = some y) : (productRow f r s)[i * s.length + j]? = some (f x y) := by
  obtain ⟨inside, _⟩ := List.getElem?_eq_some_iff.mp right
  have pos : 0 < s.length := by omega
  have place : (i * s.length + j) / s.length = i := by
    rw [Nat.add_comm, Nat.add_mul_div_right _ _ pos, Nat.div_eq_of_lt inside, Nat.zero_add]
  have rest : (i * s.length + j) % s.length = j := by
    rw [Nat.add_comm, Nat.add_mul_mod_self_right, Nat.mod_eq_of_lt inside]
  rw [productRow, getElem?_flatMap_of_length pos (by simp), place, rest, left]
  simp [right]

lemma filterMap_productRow {rs : List (List α)} {ss : List (List β)}
    (left : ∀ r ∈ rs, r.length = w) (right : ∀ s ∈ ss, s.length = v) (inside : i < w)
    (inside' : j < v) :
    (zipWith (productRow f) rs ss).filterMap (·[i * v + j]?) =
      zipWith f (rs.filterMap (·[i]?)) (ss.filterMap (·[j]?)) := by
  induction rs generalizing ss with
  | nil => rfl
  | cons r rs ih =>
    cases ss with
    | nil => simp
    | cons s ss =>
      obtain ⟨long, left⟩ := forall_mem_cons.mp left
      obtain ⟨rfl, right⟩ := forall_mem_cons.mp right
      obtain ⟨x, first⟩ : ∃ x, r[i]? = some x := ⟨_, getElem?_eq_getElem (by omega)⟩
      obtain ⟨y, second⟩ : ∃ y, s[j]? = some y := ⟨_, getElem?_eq_getElem inside'⟩
      simp only [zipWith_cons_cons, filterMap_cons, getElem?_productRow first second, first,
        second, ih left right]

lemma range_mul (w v : Nat) :
    range (w * v) = (range w).flatMap fun i => (range v).map (i * v + ·) := by
  induction w with
  | zero => simp
  | succ w ih => rw [Nat.succ_mul, range_add, range_succ, flatMap_append, ih]; simp

/-- The columns of a product are those of the first matrix times those of the second. -/
lemma columnList_productWith {n : Matrix β} (left : m.Rectangular) (right : n.Rectangular) :
    (m.productWith f n).columnList =
      m.columnList.flatMap fun xs => n.columnList.map (zipWith f xs) := by
  have width : (m.productWith f n).width = m.width * n.width := rfl
  rw [columnList, width, range_mul, map_flatMap, columnList, columnList, flatMap_map]
  apply flatMap_congr
  intro i mem
  rw [map_map, map_map]
  apply map_congr_left
  intro j mem'
  exact filterMap_productRow left right (mem_range.mp mem) (mem_range.mp mem')

lemma Rectangular.productWith {n : Matrix β} (left : m.Rectangular) (right : n.Rectangular) :
    (m.productWith f n).Rectangular := by
  intro row mem
  obtain ⟨i, bound, rfl⟩ := getElem_of_mem mem
  simp only [Matrix.productWith, getElem_zipWith, productRow, length_flatMap,
    length_map, map_const', sum_replicate_nat]
  rw [left _ (getElem_mem _), right _ (getElem_mem _)]

lemma Rectangular.map {f : α → β} (held : m.Rectangular) : (m.map f).Rectangular := by
  intro row mem
  obtain ⟨row', own, rfl⟩ := mem_map.mp mem
  rw [length_map]
  exact held row' own

lemma columnList_map (f : α → β) (m : Matrix α) :
    (m.map f).columnList = m.columnList.map (·.map f) := by
  have column : ∀ j, (m.map f).column j = (m.column j).map f := by
    intro j
    simp [column, map, filterMap_map, map_filterMap]
  rw [columnList, columnList, map_map]
  exact map_congr_left fun j _ => column j

lemma length_of_mem_columnList (held : m.Rectangular) {xs : List α} (mem : xs ∈ m.columnList) :
    xs.length = m.height := by
  obtain ⟨j, inside, rfl⟩ := mem_map.mp mem
  have some : ∀ rows : List (List α), (∀ row ∈ rows, row.length = m.width) →
      (rows.filterMap (·[j]?)).length = rows.length := by
    intro rows all
    induction rows with
    | nil => rfl
    | cons row rows ih =>
      obtain ⟨first, others⟩ := forall_mem_cons.mp all
      have inside : j < row.length := by rw [first]; exact mem_range.mp inside
      simp only [filterMap_cons, getElem?_eq_getElem inside, length_cons, ih others]
  exact some m.rows held

lemma rectangular_ofVector (xs : List α) : (ofVector xs).Rectangular := by
  intro row mem
  obtain ⟨x, _, rfl⟩ := mem_map.mp mem
  rfl

lemma Rectangular.beside {m n : Matrix α} (left : m.Rectangular) (right : n.Rectangular) :
    (m.beside n).Rectangular := by
  intro row mem
  obtain ⟨i, bound, rfl⟩ := getElem_of_mem mem
  simp only [Matrix.beside, getElem_zipWith, length_append]
  rw [left _ (getElem_mem _), right _ (getElem_mem _)]

/-- Side by side stand the columns of the first matrix and then those of the second. -/
lemma columnList_beside {m n : Matrix α} (held : m.Rectangular) (tall : m.height = n.height) :
    (m.beside n).columnList = m.columnList ++ n.columnList := by
  have rows : ∀ rs ss : List (List α), (∀ r ∈ rs, r.length = m.width) → rs.length = ss.length →
      ∀ j, (j < m.width → (zipWith (· ++ ·) rs ss).filterMap (·[j]?) = rs.filterMap (·[j]?)) ∧
      (zipWith (· ++ ·) rs ss).filterMap (·[m.width + j]?) = ss.filterMap (·[j]?) := by
    intro rs
    induction rs with
    | nil =>
      intro ss _ long j
      obtain rfl : ss = [] := by simpa using long.symm
      simp
    | cons r rs ih =>
      intro ss all long j
      obtain ⟨s, ss, rfl⟩ := exists_cons_of_length_eq_add_one long.symm
      obtain ⟨first, others⟩ := forall_mem_cons.mp all
      obtain ⟨early, late⟩ := ih ss others (by simpa using long) j
      rw [zipWith_cons_cons]
      constructor
      · intro inside
        have here : (r ++ s)[j]? = r[j]? := getElem?_append_left (by omega)
        simp only [filterMap_cons, here, early inside]
      · have here : (r ++ s)[m.width + j]? = s[j]? := by
          rw [← first, getElem?_append_right (by omega), Nat.add_sub_cancel_left]
        simp only [filterMap_cons, here, late]
  have width : (m.beside n).width = m.width + n.width := rfl
  rw [columnList, width, range_add, map_append, map_map]
  congr 1
  · exact map_congr_left fun j mem => (rows m.rows n.rows held tall j).1 (mem_range.mp mem)
  · exact map_congr_left fun j _ => (rows m.rows n.rows held tall j).2

lemma foldl_beside (held : m.Rectangular) {ms : List (Matrix α)}
    (each : ∀ n ∈ ms, n.Rectangular ∧ n.height = m.height) :
    (ms.foldl beside m).Rectangular ∧ (ms.foldl beside m).height = m.height ∧
      (ms.foldl beside m).columnList = m.columnList ++ ms.flatMap columnList := by
  induction ms generalizing m with
  | nil => simpa using held
  | cons n ms ih =>
    obtain ⟨⟨own, first⟩, others⟩ := forall_mem_cons.mp each
    have height : (m.beside n).height = m.height := by rw [height_beside, first, Nat.min_self]
    rw [← height] at others
    obtain ⟨rows, tall, columns⟩ := ih (held.beside own) others
    rw [foldl_cons, flatMap_cons, columns, tall, columnList_beside held first.symm, append_assoc]
    exact ⟨rows, height, rfl⟩

end Matrix

/-! ### Blocks of well-formed cells -/

/-- The cells that a sort has, if it is one of numbers. -/
def CellType.Holds : CellType → Datum → Prop
  | .bool, x => ∃ b, x = .bool b
  | .int, x => ∃ n, x = .int n
  | .float, x => ∃ v, x = .float v
  | .text, _ | .object, _ => True

instance (d : CellType) (x : Datum) : Decidable (d.Holds x) :=
  decidable_of_iff (d.isNumeric = true → d.holds x = true) (by
    cases d <;> cases x <;> simp [CellType.isNumeric, CellType.holds, CellType.Holds])

lemma CellType.Holds.convert (holds : d.Holds x) (numeric : (d.join e).isNumeric) :
    (d.join e).Holds (Block.convert (d.join e) x) := by
  cases d with
  | text | object => cases e <;> cases numeric
  | bool | int | float =>
    obtain ⟨v, rfl⟩ := holds
    cases e with
    | text | object => cases numeric
    | bool | int | float => exact ⟨_, rfl⟩

lemma CellType.Holds.convert_self (holds : d.Holds x) (other : d ≠ .text) :
    Block.convert d x = x := by
  cases d with
  | text => exact absurd rfl other
  | bool | object => rfl
  | int | float =>
    obtain ⟨v, rfl⟩ := holds
    rfl

namespace Block

/-- A vector, or a matrix with rows of one width, in which numbers are of the sort of the block. -/
structure Regular (b : Block) : Prop where
  rows : ∃ m, b.matrix? = some m ∧ m.Rectangular ∧ ∀ xs ∈ m.columnList, ∀ x ∈ xs, b.cellType.Holds x

instance (b : Block) : Decidable b.Regular :=
  decidable_of_iff (b.matrix?.any (fun m => decide (m.Rectangular ∧
      ∀ xs ∈ m.columnList, ∀ x ∈ xs, b.cellType.Holds x)) = true) (by
    rw [Option.any_eq_true]
    simp only [decide_eq_true_iff]
    exact ⟨fun rows => ⟨rows⟩, fun regular => regular.rows⟩)

/-! ### Products of two columns -/

/-- The sort of the products of cells. -/
def productType (d e : CellType) : CellType := if (d.join e).isNumeric then d.join e else .object

lemma numberCell_mul (numeric : d.isNumeric) (left : d.Holds x) (right : d.Holds y) :
    numberCell .mul d x y = .ok (mulCell d x y) ∧ d.Holds (mulCell d x y) := by
  cases d with
  | text | object => cases numeric
  | bool | int | float =>
    obtain ⟨v, rfl⟩ := left
    obtain ⟨w, rfl⟩ := right
    exact ⟨rfl, _, rfl⟩

lemma workingType_mul (d : CellType) : workingType .mul d = d := by
  cases d <;> rfl

lemma binaryBlocks_ofColumn (xs ys : List Datum) (numeric : (d.join e).isNumeric) :
    binaryBlocks .mul (ofColumn d xs) (ofColumn e ys) = do
      let pairs ← pairGrid.pairRow xs ys
      let cells ← pairs.mapM fun p =>
        numberCell .mul (d.join e) (convert (d.join e) p.1) (convert (d.join e) p.2)
      return ofColumn (d.join e) cells := by
  have apart (d e : CellType) (xs ys : List Datum) (numeric : (d.join e).isNumeric) :
      numbersMeet (ofColumn d xs) (ofColumn e ys) = false := by
    cases e with
    | text | object => cases d <;> cases numeric
    | bool | int | float => simp [numbersMeet, isLoneObject]
  have numeric' : (e.join d).isNumeric := by rwa [CellType.join_comm]
  unfold binaryBlocks
  simp only [apart d e xs ys numeric, apart e d ys xs numeric', Bool.or_self, Bool.false_and]
  rw [pairGrid]
  cases pairGrid.pairRow xs ys with
  | error => rfl
  | ok pairs =>
    simp only [ok_bind, Except.map, Bool.false_eq_true, if_false, pure_ok]
    split
    next text =>
      rw [text] at numeric
      cases numeric
    next object =>
      rw [object] at numeric
      cases numeric
    next =>
      rw [workingType_mul, mapGridM]
      cases pairs.mapM fun p =>
        numberCell .mul (d.join e) (convert (d.join e) p.1) (convert (d.join e) p.2) <;> rfl

lemma mapM_numberCell (pairs : List (Datum × Datum)) (numeric : (d.join e).isNumeric)
    (left : ∀ p ∈ pairs, d.Holds p.1) (right : ∀ p ∈ pairs, e.Holds p.2) :
    pairs.mapM (fun p =>
        numberCell .mul (d.join e) (convert (d.join e) p.1) (convert (d.join e) p.2)) =
      .ok (pairs.map fun p =>
        mulCell (d.join e) (convert (d.join e) p.1) (convert (d.join e) p.2)) ∧
    ∀ p ∈ pairs, (d.join e).Holds
      (mulCell (d.join e) (convert (d.join e) p.1) (convert (d.join e) p.2)) := by
  have each : ∀ p ∈ pairs, _ := fun p mem => by
    have other : (e.join d).isNumeric := by rwa [CellType.join_comm]
    have second := (right p mem).convert other
    rw [CellType.join_comm] at second
    exact numberCell_mul numeric ((left p mem).convert numeric) second
  rw [mapM_ok_iff, forall₂_map_right_iff, forall₂_same]
  exact ⟨fun p mem => (each p mem).1, fun p mem => (each p mem).2⟩

/-- The products of two columns cell by cell. -/
def timesCells (d : CellType) (xs ys : List Datum) : List Datum :=
  zipWith (fun x y => mulCell d (convert d x) (convert d y)) xs ys

/-- Columns of numbers that are equally long are multiplied cell by cell. -/
lemma binaryBlocks_mul {xs ys : List Datum} (numeric : (d.join e).isNumeric)
    (left : ∀ x ∈ xs, d.Holds x) (right : ∀ y ∈ ys, e.Holds y) (long : xs.length = ys.length) :
    binaryBlocks .mul (ofColumn d xs) (ofColumn e ys) =
        .ok (ofColumn (d.join e) (timesCells (d.join e) xs ys)) ∧
      ∀ x ∈ timesCells (d.join e) xs ys, (d.join e).Holds x := by
  obtain ⟨cells, holds⟩ := mapM_numberCell (xs.zip ys) numeric
    (fun p mem => left p.1 (of_mem_zip mem).1)
    (fun p mem => right p.2 (of_mem_zip mem).2)
  have zipped : timesCells (d.join e) xs ys = (xs.zip ys).map fun p =>
      mulCell (d.join e) (convert (d.join e) p.1) (convert (d.join e) p.2) := by
    rw [timesCells, zip_eq_zipWith, map_zipWith]
  rw [zipped, binaryBlocks_ofColumn xs ys numeric, RowPair.pairRow_of_length long, forall_mem_map]
  simpa only [ok_bind, cells, pure_ok, true_and] using holds

lemma mem_pairRow {xs ys : List α} {pairs : List (α × α)}
    (paired : pairGrid.pairRow xs ys = .ok pairs) : ∀ p ∈ pairs, p.1 ∈ xs ∧ p.2 ∈ ys := by
  unfold pairGrid.pairRow at paired
  intro p mem
  split at paired
  · cases paired
    obtain ⟨y, own, rfl⟩ := mem_map.mp mem
    exact ⟨mem_singleton_self _, own⟩
  · cases paired
    obtain ⟨x, own, rfl⟩ := mem_map.mp mem
    exact ⟨own, mem_singleton_self _⟩
  · split at paired
    · cases paired
      exact of_mem_zip mem
    · cases paired

/-- The product of two columns is a column, and its sort depends on theirs only. -/
lemma column_of_times {xs ys : List Datum} (left : ∀ x ∈ xs, d.Holds x)
    (right : ∀ y ∈ ys, e.Holds y)
    (times : binaryBlocks .mul (ofColumn d xs) (ofColumn e ys) = .ok z) :
    ∃ zs, z = ofColumn (productType d e) zs ∧ ∀ x ∈ zs, (productType d e).Holds x := by
  rw [productType]
  split
  next numeric =>
    rw [binaryBlocks_ofColumn xs ys numeric] at times
    obtain ⟨pairs, paired, times⟩ := bind_eq_ok.mp times
    obtain ⟨cells, holds⟩ := mapM_numberCell pairs numeric
      (fun p mem => left p.1 (mem_pairRow paired p mem).1)
      (fun p mem => right p.2 (mem_pairRow paired p mem).2)
    rw [cells] at times
    cases times
    refine ⟨_, rfl, ?_⟩
    rw [forall_mem_map]
    exact holds
  next other =>
    unfold binaryBlocks at times
    simp only [bind, Except.bind, pure, Except.pure] at times
    by_cases mixed : (numbersMeet (ofColumn d xs) (ofColumn e ys) ||
      numbersMeet (ofColumn e ys) (ofColumn d xs))
    · simp only [mixed, isComparison, Bool.not_false, Bool.and_self, if_true] at times
      cases times
    · rw [Bool.not_eq_true] at mixed
      simp only [mixed, Bool.false_and, Bool.false_eq_true, if_false, pairGrid] at times
      cases paired : pairGrid.pairRow xs ys with
      | error => simp [paired, Except.map] at times
      | ok pairs =>
        have objects : d.join e = .text ∨ d.join e = .object := by
          cases sort : d.join e <;> simp_all [CellType.isNumeric]
        rcases objects with sort | sort
        all_goals
          simp only [paired, Except.map, sort, mapGridM] at times
          cases mapped : pairs.mapM fun x => objectCell .mul x.1 x.2 with
          | error => simp [mapped] at times
          | ok zs =>
            simp only [mapped] at times
            cases times
            exact ⟨zs, rfl, fun x _ => trivial⟩

/-! ### Stacking columns -/

lemma productType_ne_text (d e : CellType) : productType d e ≠ .text := by
  cases d <;> cases e <;> decide

lemma joinAll_ofColumn (d : CellType) (xs : List Datum) (xss : List (List Datum)) :
    joinAll ((xs :: xss).map (ofColumn d)) = d := by
  rw [map_cons, joinAll]
  induction xss with
  | nil => rfl
  | cons ys xss ih => rwa [map_cons, foldl_cons, CellType.join_self]

/-- Columns of one sort that can be stacked are the columns of the stack. -/
lemma columns_of_stack {xss : List (List Datum)} (sort : d ≠ .text)
    (cells : ∀ xs ∈ xss, ∀ x ∈ xs, d.Holds x) (done : stack (xss.map (ofColumn d)) = .ok p) :
    p.Regular ∧ p.columns = .ok (xss.map (ofColumn d)) := by
  cases xss with
  | nil => cases done
  | cons xs xss =>
    have mapped : ((xs :: xss).map (ofColumn d)).mapM (fun b => stacked (b.convertTo d)) =
        .ok ((xs :: xss).map ofVector) := by
      rw [mapM_map]
      apply mapM_eq_map
      intro ys mem
      have same : ys.map (convert d) = ys := by
        conv_rhs => rw [← map_id ys]
        exact map_congr_left fun y own => (cells ys mem y own).convert_self sort
      simp [stacked, convertTo, Grid.map, same]
    simp only [stack, joinAll_ofColumn, mapped, ok_bind] at done
    rw [map_cons] at done
    dsimp only at done
    split at done
    next eq =>
      cases done
      have each : ∀ n ∈ xss.map ofVector, n.Rectangular ∧ n.height = (ofVector xs).height := by
        intro n mem
        have height := all_eq_true.mp eq n mem
        obtain ⟨ys, _, rfl⟩ := mem_map.mp mem
        exact ⟨rectangular_ofVector ys, by simpa using height⟩
      obtain ⟨rows, _, columns⟩ := foldl_beside (rectangular_ofVector xs) each
      have single : (xss.map ofVector).flatMap columnList = xss := by
        simp [flatMap_map, columnList_ofVector]
      rw [columnList_ofVector, single] at columns
      refine ⟨⟨_, rfl, rows, ?_⟩, ?_⟩
      · rw [columns]
        exact cells
      · rw [columns_of_rows rfl, columns]
        rfl
    next => cases done

/-! ### Products of blocks -/

variable {a b : Block}

lemma product_ofColumn (d e : CellType) (xss yss : List (List Datum)) :
    (xss.map (ofColumn d)).product (yss.map (ofColumn e)) =
      (xss.product yss).map fun p => (ofColumn d p.1, ofColumn e p.2) := by
  simp [product, map_flatMap, flatMap_map, Function.comp_def]

section Two

variable {n : Matrix Datum}

/-- The columns of a product that is taken at once. -/
lemma columns_of_numericProduct (shape : a.matrix? = some m) (shape' : b.matrix? = some n)
    (rows : m.Rectangular) (rows' : n.Rectangular)
    (cells : ∀ xs ∈ m.columnList, ∀ x ∈ xs, a.cellType.Holds x)
    (cells' : ∀ xs ∈ n.columnList, ∀ x ∈ xs, b.cellType.Holds x)
    (product : numericProduct? a b = some p) :
    p.Regular ∧ ∃ zs, p.columns = .ok zs ∧
      List.Forall₂ (fun xy z => binaryBlocks .mul xy.1 xy.2 = .ok z)
        ((m.columnList.map (ofColumn a.cellType)).product (n.columnList.map (ofColumn b.cellType)))
        zs := by
  obtain ⟨numeric, ⟨tall, _⟩, rfl⟩ := (numericProduct?_eq_some_iff shape shape').mp product
  have columns : (multiplied (a.cellType.join b.cellType) m n).columnList =
      (m.columnList.product n.columnList).map fun p =>
        timesCells (a.cellType.join b.cellType) p.1 p.2 := by
    rw [multiplied, columnList_productWith rows.map rows'.map, columnList_map, columnList_map]
    simp [List.product, map_flatMap, flatMap_map, zipWith_map, Function.comp_def, timesCells]
  have each : ∀ p ∈ m.columnList.product n.columnList, _ := fun p mem => by
    obtain ⟨own, own'⟩ := mem_product.mp (show (p.1, p.2) ∈ _ from mem)
    exact binaryBlocks_mul numeric (cells p.1 own) (cells' p.2 own') (by
      rw [length_of_mem_columnList rows own, length_of_mem_columnList rows' own', tall])
  constructor
  · refine ⟨_, rfl, rows.map.productWith rows'.map, ?_⟩
    rw [columns, forall_mem_map]
    exact fun p mem => (each p mem).2
  · refine ⟨_, columns_of_rows rfl, ?_⟩
    rw [columns, product_ofColumn, map_map, forall₂_map_left_iff,
      forall₂_map_right_iff, forall₂_same]
    exact fun p mem => (each p mem).1

/-- The columns of a product that is taken column by column. -/
lemma columns_of_stacked {zs : List Block}
    (cells : ∀ xs ∈ m.columnList, ∀ x ∈ xs, a.cellType.Holds x)
    (cells' : ∀ xs ∈ n.columnList, ∀ x ∈ xs, b.cellType.Holds x)
    (times : Forall₂ (fun xy z => binaryBlocks .mul xy.1 xy.2 = .ok z)
      ((m.columnList.map (ofColumn a.cellType)).product (n.columnList.map (ofColumn b.cellType))) zs)
    (done : stack zs = .ok p) : p.Regular ∧ p.columns = .ok zs := by
  obtain ⟨zss, rfl, holds⟩ : ∃ zss : List (List Datum),
      zs = zss.map (ofColumn (productType a.cellType b.cellType)) ∧
        ∀ xs ∈ zss, ∀ x ∈ xs, (productType a.cellType b.cellType).Holds x := by
    rw [product_ofColumn, forall₂_map_left_iff] at times
    have known : ∀ p ∈ m.columnList.product n.columnList, p.1 ∈ m.columnList ∧ p.2 ∈ n.columnList :=
      fun p mem => mem_product.mp mem
    clear done
    generalize m.columnList.product n.columnList = ps at times known
    induction times with
    | nil => exact ⟨[], rfl, by simp⟩
    | @cons p z ps zs first _ ih =>
      obtain ⟨here, later⟩ := forall_mem_cons.mp known
      obtain ⟨zss, rfl, holds⟩ := ih later
      obtain ⟨xs, rfl, own⟩ := column_of_times (cells p.1 here.1) (cells' p.2 here.2) first
      exact ⟨xs :: zss, rfl, forall_mem_cons.mpr ⟨own, holds⟩⟩
  exact columns_of_stack (productType_ne_text _ _) holds done

end Two

/-- The columns of the product of two blocks. -/
lemma columns_of_interact (left : a.Regular) (right : b.Regular) (first : a.columns = .ok xs)
    (second : b.columns = .ok ys) (done : interact a b = .ok p) :
    p.Regular ∧ ∃ zs, p.columns = .ok zs ∧
      Forall₂ (fun xy z => binaryBlocks .mul xy.1 xy.2 = .ok z) (xs.product ys) zs := by
  obtain ⟨m, shape, rows, cells⟩ := left.rows
  obtain ⟨n, shape', rows', cells'⟩ := right.rows
  obtain rfl := Except.ok.inj ((columns_of_rows shape).symm.trans first)
  obtain rfl := Except.ok.inj ((columns_of_rows shape').symm.trans second)
  rw [interact] at done
  cases product : numericProduct? a b with
  | some q =>
    rw [product] at done
    cases done
    exact columns_of_numericProduct shape shape' rows rows' cells cells' product
  | none =>
    rw [product] at done
    dsimp only at done
    obtain ⟨_, same, done⟩ := bind_eq_ok.mp done
    obtain rfl := Except.ok.inj (first.symm.trans same)
    obtain ⟨_, same, done⟩ := bind_eq_ok.mp done
    obtain rfl := Except.ok.inj (second.symm.trans same)
    obtain ⟨zs, times, done⟩ := bind_eq_ok.mp done
    have products := (mapM_ok_iff _ _ _).mp times
    obtain ⟨regular, columns⟩ := columns_of_stacked cells cells' products done
    exact ⟨regular, zs, columns, products⟩

/-- The product of several columns, from left to right. -/
def timesAll : List Block → Except Fault Block
  | [] => .error .unsupported
  | x :: xs => xs.foldlM (binaryBlocks .mul) x

lemma choices_cons_cons (xs ys : List α) (xss : List (List α)) : choices (xs :: ys :: xss) =
      (xs.product ys).flatMap fun p => (choices xss).map fun cs => p.1 :: p.2 :: cs := by
  simp [choices, product, map_flatMap, flatMap_assoc, flatMap_map, Function.comp_def]

/-- Multiplying two columns first does not change the product. -/
lemma map_timesAll (yss : List (List Block))
    (times : Forall₂ (fun xy z => binaryBlocks .mul xy.1 xy.2 = .ok z) (xs.product ys) zs) :
    (choices (xs :: ys :: yss)).map timesAll = (choices (zs :: yss)).map timesAll := by
  rw [choices_cons_cons, choices]
  generalize xs.product ys = ps at times
  induction times with
  | nil => rfl
  | @cons p z ps zs first _ ih =>
    rw [flatMap_cons, flatMap_cons, map_append, map_append, ih]
    congr 1
    rw [map_map, map_map]
    apply map_congr_left
    intro cs _
    simp only [Function.comp_apply, timesAll, foldlM_cons, first]
    rfl

/-- The columns of a product of several blocks are the products of the choices of columns. -/
lemma columns_of_foldlM (left : a.Regular) (first : a.columns = .ok xs)
    (each : Forall₂ (fun b ys => b.Regular ∧ b.columns = .ok ys) bs yss)
    (done : bs.foldlM interact a = .ok p) :
    ∃ zs, p.columns = .ok zs ∧
      Forall₂ (fun cs z => timesAll cs = .ok z) (choices (xs :: yss)) zs := by
  induction each generalizing a xs with
  | nil =>
    cases done
    refine ⟨xs, first, ?_⟩
    have single : choices [xs] = xs.map fun x => [x] := flatMap_pure_eq_map _ xs
    rw [single, forall₂_map_left_iff, forall₂_same]
    exact fun x _ => rfl
  | @cons b ys bs yss second _ ih =>
    rw [foldlM_cons] at done
    obtain ⟨q, step, done⟩ := bind_eq_ok.mp done
    obtain ⟨regular, zs, columns, times⟩ := columns_of_interact left second.1 first second.2 step
    obtain ⟨ws, last, products⟩ := ih regular columns done
    refine ⟨ws, last, ?_⟩
    rw [← forall₂_map_left_iff (f := timesAll) (R := fun r z => r = .ok z)] at products ⊢
    rwa [map_timesAll yss times]

/-! ### Rows of products -/

/-- The entry of a column in a row, with the sort that it has. -/
def entry (i : Nat) (b : Block) : Option (CellType × Datum) :=
  b.grid.cells[i]?.map fun x => (b.cellType, x)

/-- The product of two numbers in the sort that can hold both. -/
def timesEntry (x y : CellType × Datum) : CellType × Datum :=
  (x.1.join y.1, mulCell (x.1.join y.1) (convert (x.1.join y.1) x.2) (convert (x.1.join y.1) y.2))

/-- The product of the entries of a row, from left to right. -/
def timesRow : List (CellType × Datum) → Option (CellType × Datum)
  | [] => none
  | x :: xs => some (xs.foldl timesEntry x)

/-- A column of so many numbers. -/
structure IsNumbers (height : Nat) (b : Block) : Prop where
  numeric : b.cellType.isNumeric = true
  column : ∃ xs, b = ofColumn b.cellType xs ∧ xs.length = height ∧ ∀ x ∈ xs, b.cellType.Holds x

lemma Regular.isNumbers {x : Block} (regular : b.Regular) (columns : b.columns = .ok xs)
    (mem : x ∈ xs) (numeric : x.cellType.isNumeric) (long : x.grid.cells.length = h) :
    x.IsNumbers h := by
  obtain ⟨m, shape, _, cells⟩ := regular.rows
  rw [columns_of_rows shape] at columns
  cases columns
  obtain ⟨ys, own, rfl⟩ := mem_map.mp mem
  exact ⟨numeric, ys, rfl, long, cells ys own⟩

/-- The product of two columns of numbers in each row. -/
lemma IsNumbers.times (left : a.IsNumbers h) (right : b.IsNumbers h) :
    ∃ p, binaryBlocks .mul a b = .ok p ∧ p.IsNumbers h ∧
      ∀ i x y, a.entry i = some x → b.entry i = some y → p.entry i = some (timesEntry x y) := by
  obtain ⟨numeric, xs, whole, long, holds⟩ := left
  obtain ⟨numeric', ys, whole', long', holds'⟩ := right
  have both := CellType.join_isNumeric numeric numeric'
  obtain ⟨times, holds''⟩ := binaryBlocks_mul both holds holds' (by omega)
  rw [← whole, ← whole'] at times
  refine ⟨_, times, ⟨both, _, rfl, by simp [timesCells, long, long'], holds''⟩, ?_⟩
  intro i x y first second
  rw [whole, entry, Option.map_eq_some_iff] at first
  rw [whole', entry, Option.map_eq_some_iff] at second
  obtain ⟨x, first, rfl⟩ := first
  obtain ⟨y, second, rfl⟩ := second
  simp only [Grid.cells] at first second
  simp [entry, Grid.cells, timesCells, getElem?_zipWith, first, second, timesEntry]

lemma IsNumbers.exists_entry (numbers : a.IsNumbers h) (inside : i < h) :
    ∃ x, a.entry i = some x := by
  obtain ⟨_, xs, whole, long, _⟩ := numbers
  rw [whole]
  apply Option.isSome_iff_exists.mp
  simpa [entry, Grid.cells, long] using inside

lemma foldlM_times {cs : List Block} (left : a.IsNumbers h) (each : ∀ c ∈ cs, c.IsNumbers h) :
    ∃ p, cs.foldlM (binaryBlocks .mul) a = .ok p ∧ p.IsNumbers h ∧
      ∀ i < h, ∀ x, a.entry i = some x → ∃ row, cs.mapM (·.entry i) = some row ∧
        p.entry i = some (row.foldl timesEntry x) := by
  induction cs generalizing a with
  | nil => exact ⟨a, rfl, left, fun i _ x found => ⟨[], rfl, found⟩⟩
  | cons c cs ih =>
    obtain ⟨second, others⟩ := forall_mem_cons.mp each
    obtain ⟨q, times, numbers, entries⟩ := left.times second
    obtain ⟨p, done, numbers', rows⟩ := ih numbers others
    refine ⟨p, ?_, numbers', ?_⟩
    · rw [foldlM_cons, times]
      exact done
    · intro i inside x found
      obtain ⟨y, found'⟩ := second.exists_entry inside
      obtain ⟨row, mapped, last⟩ := rows i inside _ (entries i x y found found')
      exact ⟨y :: row, by simp [mapM_cons, found', mapped], last⟩

/-- The product of columns of numbers has the product of their entries in each row. -/
lemma entry_timesAll {cs : List Block} {x : Block} (each : ∀ c ∈ cs, c.IsNumbers h)
    (times : timesAll cs = .ok x) (inside : i < h) :
    ∃ row, cs.mapM (·.entry i) = some row ∧ x.entry i = timesRow row := by
  cases cs with
  | nil => cases times
  | cons c cs =>
    obtain ⟨first, others⟩ := forall_mem_cons.mp each
    obtain ⟨p, done, _, rows⟩ := foldlM_times first others
    obtain rfl := Except.ok.inj (done.symm.trans times)
    obtain ⟨y, found⟩ := first.exists_entry inside
    obtain ⟨row, mapped, last⟩ := rows i inside y found
    exact ⟨y :: row, by simp [mapM_cons, found, mapped], last⟩

lemma columns_of_interactAll (each : Forall₂ (fun b xs => b.Regular ∧ b.columns = .ok xs) bs xss)
    (done : interactAll bs = .ok p) :
    ∃ zs, p.columns = .ok zs ∧ Forall₂ (fun cs z => timesAll cs = .ok z) (choices xss) zs := by
  cases each with
  | nil => cases done
  | cons first rest => exact columns_of_foldlM first.1 first.2 rest done

end Block

end ModelFormula
