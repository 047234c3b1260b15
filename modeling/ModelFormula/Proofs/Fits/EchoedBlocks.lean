import ModelFormula.Proofs.Numbers.FloatProducts

/-!
# Blocks evaluated twice

One block echoes another if they have the same shape and every entry is the same number, be it whole
or a fraction. Products and stacks keep this as long as the whole numbers that meet in a row stay
within 53 binary digits.
-/
namespace ModelFormula

open List CellType ModelFormula.Matrix Block

variable {w : Prop} {c c' d d' : CellType} {α : Type} {m : Matrix Datum}

open Decimal

/-! ### Entries -/

/-- An entry and what stands in its place, in cells of the given sorts. Fractions may stand for whole
numbers if `w` holds; then no whole number is larger than the bound. -/
inductive Echo (w : Prop) (k : Nat) : CellType → CellType → Datum → Datum → Prop
  | bool (b : Bool) : Echo w k .bool .bool (.bool b) (.bool b)
  | int {n : Int} (small : w → n.natAbs ≤ k) : Echo w k .int .int (.int n) (.int n)
  | whole {n : Int} {v : Float} (mixed : w) (small : n.natAbs ≤ k)
      (exact : Literal.intEqFloat n v = true) : Echo w k .int .float (.int n) (.float v)
  | float {u v : Float} (agrees : Agrees u v) : Echo w k .float .float (.float u) (.float v)

/-- Sorts of cells of which the second can stand for the first. -/
inductive CellType.Echo (w : Prop) : CellType → CellType → Prop
  | bool : Echo w .bool .bool
  | int : Echo w .int .int
  | whole (mixed : w) : Echo w .int .float
  | float : Echo w .float .float

lemma CellType.join_comm (c d : CellType) : c.join d = d.join c := by
  cases c <;> cases d <;> rfl

lemma CellType.join_self (d : CellType) : d.join d = d := by
  cases d <;> rfl

lemma CellType.join_assoc (c d e : CellType) : (c.join d).join e = c.join (d.join e) := by
  cases c <;> cases d <;> cases e <;> rfl

lemma CellType.Echo.join (left : Echo w c c') (right : Echo w d d') :
    Echo w (c.join d) (c'.join d') := by
  cases left <;> cases right <;> constructor <;> assumption

lemma CellType.Echo.isNumeric (echo : Echo w d d') : d.isNumeric ∧ d'.isNumeric := by
  cases echo <;> exact ⟨rfl, rfl⟩

namespace Echo

variable {k l : Nat}

lemma mono (echo : Echo w k d d' x y) (larger : w → k ≤ l) : Echo w l d d' x y := by
  cases echo with
  | bool b => exact .bool b
  | int small => exact .int fun mixed => (small mixed).trans (larger mixed)
  | whole mixed small exact => exact .whole mixed (small.trans (larger mixed)) exact
  | float agrees => exact .float agrees

lemma intEqFloat_ofBool (b : Bool) :
    Literal.intEqFloat (Datum.ofBool b) (if b then 1.0 else 0.0) := by
  cases b <;> decide +kernel

lemma natAbs_ofBool_le (b : Bool) : (Datum.ofBool b).natAbs ≤ 1 := by
  cases b <;> decide

/-- Entries still echo each other in the sorts in which they meet others. -/
lemma convert (pos : 0 < k) (bound : w → k ≤ 2 ^ 53) (echo : Echo w k d d' x y)
    (other : CellType.Echo w c c') :
    Echo w k (d.join c) (d'.join c') (convert (d.join c) x) (convert (d'.join c') y) := by
  cases echo with
  | bool b =>
    have small := (natAbs_ofBool_le b).trans pos
    cases other with
    | bool => exact .bool b
    | int => exact .int fun _ => small
    | whole mixed => exact .whole mixed small (intEqFloat_ofBool b)
    | float => exact .float (.inl rfl)
  | int small =>
    cases other with
    | bool | int => exact .int small
    | whole mixed =>
      exact .whole mixed (small mixed) (intEqFloat_ofInt ((small mixed).trans (bound mixed)))
    | float => exact .float (.inl rfl)
  | @whole n v mixed small exact =>
    cases other with
    | bool | int | whole => exact .whole mixed small exact
    -- the whole number is made a fraction only now, and it is the one that stands opposite
    | float =>
      obtain ⟨finite, value⟩ := Literal.intEqFloat_iff.mp
        (intEqFloat_ofInt (small.trans (bound mixed)))
      obtain ⟨-, value'⟩ := Literal.intEqFloat_iff.mp exact
      exact .float (.inr (beq_of_exactValue finite (value.symm.trans value')))
  | float agrees => cases other <;> exact .float agrees

lemma wrap_of_small (small : n.natAbs ≤ 2 ^ 53) : wrap n = n := by
  rw [wrap, Int.bmod_def]
  norm_num
  omega

/-- Products of entries that echo each other do so. -/
lemma mul (bound : w → k * l ≤ 2 ^ 53) (left : Echo w k d d' x y) (right : Echo w l d d' x' y') :
    Echo w (k * l) d d' (mulCell d x x') (mulCell d' y y') := by
  have product {m n : Int} (first : m.natAbs ≤ k) (second : n.natAbs ≤ l) :
      (m * n).natAbs ≤ k * l := by
    rw [Int.natAbs_mul]
    exact Nat.mul_le_mul first second
  cases left with
  | bool b =>
    cases right with
    | bool b' => exact .bool (b && b')
  | int small =>
    cases right with
    | int small' =>
      refine .int fun mixed => ?_
      have both := product (small mixed) (small' mixed)
      rwa [wrap_of_small (both.trans (bound mixed))]
  | whole mixed small exact =>
    cases right with
    | whole _ small' exact' =>
      have both := product small small'
      have inside := both.trans (bound mixed)
      simp only [mulCell, wrap_of_small inside]
      exact .whole mixed both (intEqFloat_mul exact exact' inside)
  | float agrees =>
    cases right with
    | float agrees' => exact .float (agrees.mul agrees')

end Echo

/-! ### Rows -/

/-- Two numbers of rows, which rows belong to each other, and whether fractions may stand for whole
numbers. -/
structure Pairing where
  height : Nat
  height' : Nat
  Rows : Nat → Nat → Prop
  Mixed : Prop

/-- Every row with the one in its place. -/
def Pairing.same (h : Nat) (w : Prop) : Pairing := ⟨h, h, Eq, w⟩

/-- So many rows, each of which is echoed by those that belong to it, with a bound for each row. -/
structure EchoRows (ρ : Pairing) (k : Nat → Nat) (d d' : CellType) (m m' : Matrix Datum) :
    Prop where
  width : m'.width = m.width
  height : m.height = ρ.height
  height' : m'.height = ρ.height'
  rows : ∀ i j r r', ρ.Rows i j → m.rows[i]? = some r → m'.rows[j]? = some r' →
    List.Forall₂ (Echo ρ.Mixed (k i) d d') r r'

lemma Matrix.width_map {β : Type} (f : α → β) (m : Matrix α) : (m.map f).width = m.width := rfl

lemma Matrix.height_map {β : Type} (f : α → β) (m : Matrix α) : (m.map f).height = m.height := by
  simp [height, map]

lemma Matrix.height_productWith {β γ : Type} (f : α → β → γ) (m : Matrix α) (n : Matrix β) :
    (m.productWith f n).height = min m.height n.height := by
  simp [height, productWith]

lemma Matrix.height_beside (m n : Matrix α) : (m.beside n).height = min m.height n.height := by
  simp [height, beside]

/-- All products of the entries of two rows in cells of the sort. -/
def Block.multiplied (d : CellType) (m n : Matrix Datum) : Matrix Datum :=
  (m.map (convert d)).productWith (mulCell d) (n.map (convert d))

namespace EchoRows

variable {ρ : Pairing} {k l : Nat → Nat} {m' n n' : Matrix Datum}

lemma convert (pos : ∀ i, 0 < k i) (bound : ρ.Mixed → ∀ i, k i ≤ 2 ^ 53)
    (echo : EchoRows ρ k d d' m m') (other : CellType.Echo ρ.Mixed c c') :
    EchoRows ρ k (d.join c) (d'.join c') (m.map (convert (d.join c)))
      (m'.map (convert (d'.join c'))) where
  width := echo.width
  height := by rw [height_map, echo.height]
  height' := by rw [height_map, echo.height']
  rows i j r r' together found found' := by
    simp only [Matrix.map, getElem?_map, Option.map_eq_some_iff] at found found'
    obtain ⟨s, found, rfl⟩ := found
    obtain ⟨s', found', rfl⟩ := found'
    rw [forall₂_map_left_iff, forall₂_map_right_iff]
    exact (echo.rows i j s s' together found found').imp fun _ _ entry =>
      entry.convert (pos i) (bound · i) other

lemma forall₂_productRow {k l : Nat} (bound : w → k * l ≤ 2 ^ 53)
    (left : List.Forall₂ (Echo w k d d') xs xs') (right : List.Forall₂ (Echo w l d d') ys ys') :
    List.Forall₂ (Echo w (k * l) d d') (productRow (mulCell d) xs ys)
      (productRow (mulCell d') xs' ys') := by
  refine rel_flatMap left fun x x' entry => ?_
  rw [forall₂_map_left_iff, forall₂_map_right_iff]
  exact right.imp fun y y' entry' => entry.mul bound entry'

lemma product (bound : ρ.Mixed → ∀ i, k i * l i ≤ 2 ^ 53) (left : EchoRows ρ k d d' m m')
    (right : EchoRows ρ l d d' n n') :
    EchoRows ρ (fun i => k i * l i) d d' (m.productWith (mulCell d) n)
      (m'.productWith (mulCell d') n') where
  width := by rw [productWith, productWith, left.width, right.width]
  height := by rw [height_productWith, left.height, right.height, min_self]
  height' := by rw [height_productWith, left.height', right.height', min_self]
  rows i j r r' together found found' := by
    simp only [productWith, getElem?_zipWith_eq_some] at found found'
    obtain ⟨xs, ys, first, second, rfl⟩ := found
    obtain ⟨xs', ys', first', second', rfl⟩ := found'
    exact forall₂_productRow (bound · i) (left.rows i j xs xs' together first first')
      (right.rows i j ys ys' together second second')

/-- Rows are brought to the sort in which they meet, and are multiplied there. -/
lemma meet (pos : ∀ i, 0 < k i) (pos' : ∀ i, 0 < l i)
    (bound : ρ.Mixed → ∀ i, k i * l i ≤ 2 ^ 53) (types : CellType.Echo ρ.Mixed d d')
    (types' : CellType.Echo ρ.Mixed c c') (left : EchoRows ρ k d d' m m')
    (right : EchoRows ρ l c c' n n') :
    EchoRows ρ (fun i => k i * l i) (d.join c) (d'.join c') (multiplied (d.join c) m n)
      (multiplied (d'.join c') m' n') := by
  have small (mixed) (i : Nat) : k i ≤ 2 ^ 53 :=
    (Nat.le_mul_of_pos_right _ (pos' i)).trans (bound mixed i)
  have small' (mixed) (i : Nat) : l i ≤ 2 ^ 53 :=
    (Nat.le_mul_of_pos_left _ (pos i)).trans (bound mixed i)
  have second := right.convert pos' small' types
  rw [join_comm c, join_comm c'] at second
  exact (left.convert pos small types').product bound second

lemma beside (left : EchoRows ρ k d d' m m') (right : EchoRows ρ k d d' n n') :
    EchoRows ρ k d d' (m.beside n) (m'.beside n') where
  width := by rw [Matrix.beside, Matrix.beside, left.width, right.width]
  height := by rw [height_beside, left.height, right.height, min_self]
  height' := by rw [height_beside, left.height', right.height', min_self]
  rows i j r r' together found found' := by
    simp only [Matrix.beside, getElem?_zipWith_eq_some] at found found'
    obtain ⟨xs, ys, first, second, rfl⟩ := found
    obtain ⟨xs', ys', first', second', rfl⟩ := found'
    exact rel_append (left.rows i j xs xs' together first first')
      (right.rows i j ys ys' together second second')

lemma mono (echo : EchoRows ρ k d d' m m') (larger : ρ.Mixed → ∀ i, k i ≤ l i) :
    EchoRows ρ l d d' m m' :=
  ⟨echo.width, echo.height, echo.height', fun i j r r' together found found' =>
    (echo.rows i j r r' together found found').imp fun _ _ entry => entry.mono (larger · i)⟩

end EchoRows

/-! ### Blocks -/

/-- The columns from left to right. -/
def Matrix.columnList (m : Matrix α) : List (List α) := (List.range m.width).map m.column

lemma Matrix.columnList_ofVector (xs : List α) : (ofVector xs).columnList = [xs] := by
  simp [columnList, ofVector, column, filterMap_map]

namespace Block

/-- A block of numbers and another one that echoes it row by row. -/
structure Echoes (ρ : Pairing) (k : Nat → Nat) (b b' : Block) : Prop where
  types : CellType.Echo ρ.Mixed b.cellType b'.cellType
  rows : ∃ m m', b.matrix? = some m ∧ b'.matrix? = some m' ∧
    EchoRows ρ k b.cellType b'.cellType m m'

lemma Echoes.of_rows (types : CellType.Echo ρ.Mixed d d') (rows : EchoRows ρ k d d' m m') :
    Echoes ρ k ⟨d, .matrix m⟩ ⟨d', .matrix m'⟩ :=
  ⟨types, m, m', rfl, rfl, rows⟩

lemma matrix?_convertTo {b : Block} (shape : b.matrix? = some m) (d : CellType) :
    (b.convertTo d).matrix? = some (m.map (convert d)) := by
  unfold matrix? at shape ⊢
  cases grid : b.grid with
  | vector xs =>
    simp only [grid, Option.some.injEq] at shape
    subst shape
    simp [convertTo, grid, Grid.map, Matrix.ofVector, Matrix.map, Function.comp_def]
  | matrix m' =>
    simp only [grid, Option.some.injEq] at shape
    subst shape
    simp [convertTo, grid, Grid.map]
  | deep => simp [grid] at shape

/-- A column of cells. -/
abbrev ofColumn (d : CellType) (xs : List Datum) : Block := ⟨d, .vector xs⟩

lemma columns_of_rows {b : Block} (shape : b.matrix? = some m) :
    b.columns = .ok (m.columnList.map (ofColumn b.cellType)) := by
  obtain ⟨d, grid⟩ := b
  cases grid with
  | vector xs =>
    cases shape
    rw [columnList_ofVector]
    rfl
  | matrix m' =>
    cases shape
    simp [columns, columnList, Function.comp_def]
  | deep => cases shape

section

variable {ρ : Pairing} {h : Nat} {k l : Nat → Nat} {a a' b b' p : Block} {n : Matrix Datum}

/-- Numbers of one height are multiplied at once if there are columns on both sides. -/
lemma numericProduct?_eq_some_iff (left : a.matrix? = some m) (right : b.matrix? = some n) :
    numericProduct? a b = some p ↔ (a.cellType.join b.cellType).isNumeric ∧
      (m.height = n.height ∧ 0 < m.width ∧ 0 < n.width) ∧
      p = ⟨a.cellType.join b.cellType, .matrix (multiplied (a.cellType.join b.cellType) m n)⟩ := by
  by_cases numeric : (a.cellType.join b.cellType).isNumeric
  · by_cases shape : m.height = n.height ∧ 0 < m.width ∧ 0 < n.width
    · simp [numericProduct?, matrix?_convertTo left, matrix?_convertTo right, numeric, guard,
        height_map, width_map, shape, multiplied]
      exact eq_comm
    · simp [numericProduct?, matrix?_convertTo left, matrix?_convertTo right, numeric, guard,
        height_map, width_map, shape, and_assoc]
  · simp [numericProduct?, numeric, guard]

/-- What is multiplied has columns, since without any there is nothing to stack. -/
lemma width_pos_of_interact (left : a.matrix? = some m) (right : b.matrix? = some n)
    (done : interact a b = .ok p) : 0 < m.width ∧ 0 < n.width := by
  -- without columns the fast product does not apply, and the slow one has nothing to stack
  by_contra none
  have product : numericProduct? a b = .none := by
    rw [Option.eq_none_iff_forall_ne_some]
    intro q found
    exact none ((numericProduct?_eq_some_iff left right).mp found).2.1.2
  have columns := columns_of_rows left
  have columns' := columns_of_rows right
  have pairs : (m.columnList.map (ofColumn a.cellType)).flatMap (fun x =>
      (n.columnList.map (ofColumn b.cellType)).map fun y => (x, y)) = [] := by
    rcases Nat.eq_zero_or_pos m.width with zero | pos
    · simp [columnList, zero]
    · have zero : n.width = 0 := by omega
      simp [columnList, zero]
  simp only [interact, product, columns, columns', ok_bind, pairs, mapM_nil] at done
  cases done

/-- The product of blocks that echo each other. -/
lemma Echoes.interact (pos : ∀ i, 0 < k i) (pos' : ∀ i, 0 < l i)
    (bound : ρ.Mixed → ∀ i, k i * l i ≤ 2 ^ 53) (left : Echoes ρ k a a') (right : Echoes ρ l b b')
    (done : interact a b = .ok p) :
    ∃ p', interact a' b' = .ok p' ∧ Echoes ρ (fun i => k i * l i) p p' := by
  obtain ⟨m, m', shape, shape', rows⟩ := left.rows
  obtain ⟨n, n', other, other', rows'⟩ := right.rows
  obtain ⟨first, second⟩ := width_pos_of_interact shape other done
  have types := left.types.join right.types
  have found := (numericProduct?_eq_some_iff shape other).mpr
    ⟨types.isNumeric.1, ⟨rows.height.trans rows'.height.symm, first, second⟩, rfl⟩
  have found' := (numericProduct?_eq_some_iff shape' other').mpr
    ⟨types.isNumeric.2, ⟨rows.height'.trans rows'.height'.symm, rows.width ▸ first,
      rows'.width ▸ second⟩, rfl⟩
  simp only [Block.interact, found] at done
  cases done
  refine ⟨_, by simp only [interact, found']; rfl, .of_rows types ?_⟩
  exact rows.meet pos pos' bound left.types right.types rows'

section

variable {cs : List α} {size : α → Nat → Nat} {old new : α → Block}

lemma prod_pos (pos : ∀ c ∈ cs, ∀ i, 0 < size c i) (i : Nat) : 0 < (cs.map (size · i)).prod := by
  refine Nat.pos_of_ne_zero fun zero => ?_
  obtain ⟨c, mem, none⟩ := mem_map.mp (prod_eq_zero_iff.mp zero)
  exact (pos c mem i).ne' none

lemma echoes_foldlM (leads : ∀ i, 0 < k i) (pos : ∀ c ∈ cs, ∀ i, 0 < size c i)
    (bound : ρ.Mixed → ∀ i, k i * (cs.map (size · i)).prod ≤ 2 ^ 53) (first : Echoes ρ k a a')
    (echo : ∀ c ∈ cs, Echoes ρ (size c) (old c) (new c))
    (done : (cs.map old).foldlM interact a = .ok p) :
    ∃ p', (cs.map new).foldlM interact a' = .ok p' ∧
      Echoes ρ (fun i => k i * (cs.map (size · i)).prod) p p' := by
  -- the bound of the product so far is the invariant of the loop
  induction cs generalizing a a' k with
  | nil =>
    cases done
    exact ⟨a', rfl, by simpa using first⟩
  | cons c cs ih =>
    obtain ⟨own, others⟩ := forall_mem_cons.mp pos
    obtain ⟨second, rest⟩ := forall_mem_cons.mp echo
    obtain ⟨q, step, done⟩ := bind_eq_ok.mp done
    have total (mixed : ρ.Mixed) (i : Nat) :
        k i * size c i * (cs.map (size · i)).prod ≤ 2 ^ 53 := by
      simpa [Nat.mul_assoc] using bound mixed i
    obtain ⟨q', step', both⟩ := first.interact leads own
      (fun mixed i => (Nat.le_mul_of_pos_right _ (prod_pos others i)).trans (total mixed i)) second
      step
    obtain ⟨p', done', all⟩ := ih (fun i => Nat.mul_pos (leads i) (own i)) others total both rest
      done
    refine ⟨p', bind_eq_ok.mpr ⟨q', step', done'⟩, ?_⟩
    simpa [Nat.mul_assoc] using all

/-- Products of several blocks; the bounds of all that meet in a row are multiplied. -/
lemma echoes_interactAll (pos : ∀ c ∈ cs, ∀ i, 0 < size c i)
    (bound : ρ.Mixed → ∀ i, (cs.map (size · i)).prod ≤ 2 ^ 53)
    (echo : ∀ c ∈ cs, Echoes ρ (size c) (old c) (new c))
    (done : interactAll (cs.map old) = .ok p) :
    ∃ p', interactAll (cs.map new) = .ok p' ∧
      Echoes ρ (fun i => (cs.map (size · i)).prod) p p' := by
  cases cs with
  | nil => cases done
  | cons c cs =>
    obtain ⟨own, others⟩ := forall_mem_cons.mp pos
    obtain ⟨first, rest⟩ := forall_mem_cons.mp echo
    exact echoes_foldlM own others (by simpa using bound) first rest done

end

/-- The columns of a block for every column of a factor. -/
lemma Echoes.grouped (pos : ∀ i, 0 < k i) (pos' : ∀ i, 0 < l i)
    (bound : w → ∀ i, k i * l i ≤ 2 ^ 53) (left : Echoes (.same h w) k a a')
    (right : Echoes (.same h w) l b b') (done : grouped a b = .ok p) :
    ∃ p', grouped a' b' = .ok p' ∧ Echoes (.same h w) (fun i => k i * l i) p p' := by
  obtain ⟨m, m', shape, shape', rows⟩ := left.rows
  obtain ⟨n, n', other, other', rows'⟩ := right.rows
  have types := left.types.join right.types
  have all := rows.meet pos pos' bound left.types right.types rows'
  have numeric := types.isNumeric
  simp only [Block.grouped, shape, other, rows.height, rows'.height, Pairing.same, numeric.1,
    if_true, bind, Except.bind, beq_self_eq_true, Bool.true_and] at done
  split at done
  · next tall =>
    cases done
    refine ⟨_, ?_, .of_rows types all⟩
    simp only [grouped, shape', other', rows.height', rows'.height', Pairing.same, numeric.2,
      if_true, bind, Except.bind, beq_self_eq_true, Bool.true_and, tall]
    rfl
  · cases done

/-! ### Stacking -/

lemma stacked_of_matrix? (shape : b.matrix? = some m) : stacked b = .ok m := by
  unfold matrix? at shape
  unfold stacked
  split at shape
  · next xs grid =>
    cases shape
    simp [grid]
  · next m' grid =>
    cases shape
    simp [grid]
  · cases shape

lemma foldl_join_absorbs (d : CellType) (bs : List Block) :
    d.join (bs.foldl (fun d b => d.join b.cellType) d) = bs.foldl (fun d b => d.join b.cellType) d ∧
      ∀ b ∈ bs, b.cellType.join (bs.foldl (fun d b => d.join b.cellType) d) =
        bs.foldl (fun d b => d.join b.cellType) d := by
  induction bs generalizing d with
  | nil => simp [join_self]
  | cons b bs ih =>
    obtain ⟨own, others⟩ := ih (d.join b.cellType)
    rw [foldl_cons]
    generalize bs.foldl (fun d b => d.join b.cellType) (d.join b.cellType) = e at own others
    refine ⟨?_, forall_mem_cons.mpr ⟨?_, others⟩⟩
    · rw [← own, ← join_assoc, ← join_assoc, join_self]
    · rw [← own, join_comm d, ← join_assoc, ← join_assoc, join_self]

/-- The sort of a stack can hold the cells of each of its blocks. -/
lemma join_joinAll (mem : b ∈ bs) : b.cellType.join (joinAll bs) = joinAll bs := by
  cases bs with
  | nil => cases mem
  | cons c bs =>
    obtain ⟨own, others⟩ := foldl_join_absorbs c.cellType bs
    rcases mem_cons.mp mem with rfl | inside
    · exact own
    · exact others b inside

section

variable {cs : List α} {size : α → Nat → Nat} {old new : α → Block}

lemma foldl_join_echo (first : CellType.Echo ρ.Mixed d d')
    (echo : ∀ c ∈ cs, Echoes ρ (size c) (old c) (new c)) :
    CellType.Echo ρ.Mixed ((cs.map old).foldl (fun d b => d.join b.cellType) d)
      ((cs.map new).foldl (fun d b => d.join b.cellType) d') := by
  induction cs generalizing d d' with
  | nil => exact first
  | cons c cs ih =>
    obtain ⟨second, rest⟩ := forall_mem_cons.mp echo
    exact ih (first.join second.types) rest

lemma foldl_beside_echo {rowsOf rowsOf' : α → Matrix Datum} (first : EchoRows ρ k d d' m m')
    (rest : ∀ c ∈ cs, EchoRows ρ k d d' (rowsOf c) (rowsOf' c)) :
    EchoRows ρ k d d' ((cs.map rowsOf).foldl beside m) ((cs.map rowsOf').foldl beside m') := by
  induction cs generalizing m m' with
  | nil => exact first
  | cons c cs ih =>
    obtain ⟨second, rest⟩ := forall_mem_cons.mp rest
    exact ih (first.beside second) rest

/-- The rows that a stack of blocks has. -/
lemma stack_eq {c : α} {rowsOf : α → Matrix Datum}
    (shape : ∀ e ∈ c :: cs, (old e).matrix? = some (rowsOf e))
    (height : ∀ e ∈ c :: cs, (rowsOf e).height = h) :
    stack ((c :: cs).map old) = .ok ⟨joinAll ((c :: cs).map old),
      .matrix ((cs.map fun e => (rowsOf e).map (convert (joinAll ((c :: cs).map old)))).foldl
        beside ((rowsOf c).map (convert (joinAll ((c :: cs).map old)))))⟩ := by
  generalize sort : joinAll ((c :: cs).map old) = d
  have mapped : ((c :: cs).map old).mapM (fun b => stacked (b.convertTo d)) =
      .ok ((c :: cs).map fun e => (rowsOf e).map (convert d)) := by
    rw [mapM_map]
    exact mapM_eq_map fun e mem => stacked_of_matrix? (matrix?_convertTo (shape e mem) d)
  have tall (e : α) (mem : e ∈ c :: cs) : ((rowsOf e).map (convert d)).height = h := by
    simpa [Matrix.height, Matrix.map] using height e mem
  have heights : (cs.map fun e => (rowsOf e).map (convert d)).all
      (·.height == ((rowsOf c).map (convert d)).height) := by
    simp only [all_map, all_eq_true, Function.comp_apply, beq_iff_eq]
    intro e mem
    rw [tall e (mem_cons_of_mem c mem), tall c mem_cons_self]
  simp only [stack, sort, mapped, ok_bind]
  rw [map_cons]
  simp only [heights, if_true]
  rfl

/-- Stacks of blocks that echo each other. -/
lemma echoes_stack (pos : ∀ c ∈ cs, ∀ i, 0 < size c i)
    (bound : ρ.Mixed → ∀ c ∈ cs, ∀ i, size c i ≤ 2 ^ 53)
    (echo : ∀ c ∈ cs, Echoes ρ (size c) (old c) (new c)) (done : stack (cs.map old) = .ok p) :
    ∃ p', stack (cs.map new) = .ok p' ∧ Echoes ρ (fun _ => 2 ^ 53) p p' := by
  have rows : ∀ c ∈ cs, ∃ m m', (old c).matrix? = some m ∧ (new c).matrix? = some m' ∧
      EchoRows ρ (size c) (old c).cellType (new c).cellType m m' := fun c mem =>
    (echo c mem).rows
  choose! rowsOf rowsOf' shape shape' rows using rows
  cases cs with
  | nil => cases done
  | cons c cs =>
    rw [stack_eq shape fun e mem => (rows e mem).height] at done
    cases done
    refine ⟨_, stack_eq shape' fun e mem => (rows e mem).height', ?_⟩
    obtain ⟨first, rest⟩ := forall_mem_cons.mp echo
    have types : CellType.Echo ρ.Mixed (joinAll ((c :: cs).map old))
        (joinAll ((c :: cs).map new)) := foldl_join_echo first.types rest
    -- from here on only the common bound is needed, not that of each block
    have converted : ∀ e ∈ c :: cs, EchoRows ρ (fun _ => 2 ^ 53) (joinAll ((c :: cs).map old))
        (joinAll ((c :: cs).map new)) ((rowsOf e).map (convert (joinAll ((c :: cs).map old))))
        ((rowsOf' e).map (convert (joinAll ((c :: cs).map new)))) := by
      intro e mem
      have own := (rows e mem).convert (pos e mem) (bound · e mem) types
      rw [join_joinAll (mem_map_of_mem mem), join_joinAll (mem_map_of_mem mem)] at own
      exact own.mono (bound · e mem)
    obtain ⟨lead, others⟩ := forall_mem_cons.mp converted
    exact .of_rows types (foldl_beside_echo lead others)

end

end

end Block

end ModelFormula
