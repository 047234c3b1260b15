import ModelFormula.Proofs.Calls.Equality

/-!
# Rows apart

What is computed row by row from columns that agree in a row of two frames has the same cells there
again, whatever the other rows are, if the sorts of the cells are the same too.
-/
namespace ModelFormula

open List Value

variable {lone : Bool} {a b c d : Datum} {a' : Block} {c' : Column} {v : Value}

lemma map_eq_ok {α β : Type} {x : Except Fault α} {f : α → β} {b : β} :
    x.map f = .ok b ↔ ∃ a, x = .ok a ∧ f a = b := by
  cases x <;> simp [Except.map]

/-- What two computations return is related if both of them return. -/
def Both {α β : Type} (R : α → β → Prop) (x : Except Fault α) (y : Except Fault β) : Prop :=
  ∀ ⦃a b⦄, x = .ok a → y = .ok b → R a b

namespace Both

variable {α β γ δ : Type} {R : α → β → Prop} {S : γ → δ → Prop} {x : Except Fault α}
  {y : Except Fault β} {f : α → Except Fault γ}

lemma ok {a : α} {b : β} (related : R a b) : Both R (.ok a) (.ok b) := by
  rintro _ _ ⟨⟩ ⟨⟩
  exact related

lemma error : Both R (.error fault) y := nofun

lemma same {R : α → α → Prop} (related : ∀ a, x = .ok a → R a a) : Both R x x := by
  intro a b done done'
  obtain rfl : a = b := Except.ok.inj (done.symm.trans done')
  exact related a done

lemma bind {g : β → Except Fault δ} (both : Both R x y) (next : ∀ a b, R a b → Both S (f a) (g b)) :
    Both S (x >>= f) (y >>= g) := by
  intro c d done done'
  obtain ⟨a, first, done⟩ := bind_eq_ok.mp done
  obtain ⟨b, first', done'⟩ := bind_eq_ok.mp done'
  exact next a b (both first first') done done'

/-- The same first step. -/
lemma after {g : α → Except Fault δ} (next : ∀ a, Both S (f a) (g a)) :
    Both S (x >>= f) (x >>= g) :=
  (same (R := Eq) fun _ _ => rfl).bind fun a _ eq => eq ▸ next a

lemma map {f : α → γ} {g : β → δ} (both : Both R x y) (next : ∀ a b, R a b → S (f a) (g b)) :
    Both S (x.map f) (y.map g) := by
  intro c d done done'
  obtain ⟨a, first, rfl⟩ := map_eq_ok.mp done
  obtain ⟨b, first', rfl⟩ := map_eq_ok.mp done'
  exact next a b (both first first')

lemma ite [Decidable p] {x' : Except Fault α} {y' : Except Fault β} (yes : Both R x y)
    (no : Both R x' y') : Both R (if p then x else x') (if p then y else y') := by
  split <;> assumption

end Both

/-- The heights of two frames, and a row in each. -/
structure RowPair where
  height : Nat
  row : Nat
  height' : Nat
  row' : Nat

namespace RowPair

variable (ρ : RowPair) {α β : Type}

/-- Two columns of cells that have the same one in the two rows. -/
structure Lists (xs xs' : List α) : Prop where
  long : xs.length = ρ.height
  long' : xs'.length = ρ.height'
  same : xs[ρ.row]? = xs'[ρ.row']?

variable {ρ} {f : α → Except Fault β} {xs xs' : List α}

lemma Lists.map (lists : ρ.Lists xs xs') (f : α → β) : ρ.Lists (xs.map f) (xs'.map f) := by
  refine ⟨?_, ?_, ?_⟩
  · rw [length_map, lists.long]
  · rw [length_map, lists.long']
  · rw [getElem?_map, getElem?_map, lists.same]

lemma Lists.zipWith {γ : Type} {ys ys' : List β} (lists : ρ.Lists xs xs')
    (others : ρ.Lists ys ys') (f : α → β → γ) :
    ρ.Lists (List.zipWith f xs ys) (List.zipWith f xs' ys') := by
  refine ⟨?_, ?_, ?_⟩
  · rw [length_zipWith, lists.long, others.long, Nat.min_self]
  · rw [length_zipWith, lists.long', others.long', Nat.min_self]
  · rw [getElem?_zipWith, getElem?_zipWith, lists.same, others.same]

lemma getElem?_of_mapM {xs : List α} {ys : List β} (done : xs.mapM f = .ok ys) (i : Nat) :
    ys[i]? = xs[i]?.bind fun x => (f x).toOption := by
  have all := (mapM_ok_iff f xs ys).mp done
  clear done
  induction all generalizing i with
  | nil => rfl
  | cons first _ ih =>
    cases i with
    | zero => simp [first, Except.toOption]
    | succ i => simpa using ih i

lemma Lists.mapM (lists : ρ.Lists xs xs') : Both ρ.Lists (xs.mapM f) (xs'.mapM f) := by
  intro ys ys' done done'
  refine ⟨?_, ?_, ?_⟩
  · rw [← ((mapM_ok_iff f xs ys).mp done).length_eq, lists.long]
  · rw [← ((mapM_ok_iff f xs' ys').mp done').length_eq, lists.long']
  · rw [getElem?_of_mapM done, getElem?_of_mapM done', lists.same]

variable (ρ)

/-- Two grids of cells: a single cell that is the same, or a column of cells each. -/
inductive Grids : Bool → Grid α → Grid α → Prop
  | lone (x : α) : Grids true (.deep [] [x]) (.deep [] [x])
  | column {xs xs' : List α} (lists : ρ.Lists xs xs') : Grids false (.vector xs) (.vector xs')

variable {ρ}

lemma Grids.map {g g' : Grid α} (grids : ρ.Grids lone g g') (f : α → β) :
    ρ.Grids lone (g.map f) (g'.map f) := by
  cases grids with
  | lone x => exact .lone (f x)
  | column lists => exact .column (lists.map f)

lemma Grids.mapGridM {g g' : Grid α} (grids : ρ.Grids lone g g') :
    Both (ρ.Grids lone) (mapGridM f g) (mapGridM f g') := by
  cases grids with
  | lone x =>
    refine .same fun h done => ?_
    cases cell : f x with
    | error fault => simp [mapGridM, cell, bind, Except.bind, Except.map] at done
    | ok y =>
      simp [mapGridM, cell, bind, Except.bind, Except.map, pure, Except.pure] at done
      subst done
      exact .lone y
  | column lists => exact lists.mapM.map fun _ _ => .column

lemma pairRow_of_length {xs ys : List α} (long : xs.length = ys.length) :
    pairGrid.pairRow xs ys = .ok (xs.zip ys) := by
  unfold pairGrid.pairRow
  split
  next x =>
    obtain ⟨y, rfl⟩ := length_eq_one_iff.mp long.symm
    rfl
  next y _ =>
    obtain ⟨x, rfl⟩ := length_eq_one_iff.mp long
    rfl
  next => simp [long]

lemma Grids.pairGrid {g g' h h' : Grid α} (left : ρ.Grids lone g g')
    (right : ρ.Grids lone' h h') :
    Both (ρ.Grids (lone && lone')) (pairGrid g h) (pairGrid g' h') := by
  cases left with
  | lone x => exact .ok (right.map fun y => (x, y))
  | column lists =>
    cases right with
    | lone y => exact .ok (.column (lists.map fun x => (x, y)))
    | column others =>
      simp only [pairGrid, pairRow_of_length (lists.long.trans others.long.symm),
        pairRow_of_length (lists.long'.trans others.long'.symm)]
      exact .ok (.column (lists.zipWith others Prod.mk))

end RowPair

/-! ### Blocks -/

namespace Value

/-- The operation on paired cells, which are of a sort that can hold both. -/
def combined (op : CallExpr.Operator) (mixed : Bool) (d : CellType)
    (pairs : Grid (Datum × Datum)) : Except Fault Block :=
  if mixed then mixedBlocks op pairs
  else
    match d with
    | .text | .object => do
      let cells ← mapGridM (fun (x, y) => objectCell op x y) pairs
      return ⟨resultType op .object, cells⟩
    | d => do
      let d := workingType op d
      let cells ← mapGridM (fun (x, y) =>
        numberCell op d (Block.convert d x) (Block.convert d y)) pairs
      return ⟨resultType op d, cells⟩

lemma binaryBlocks_eq (op : CallExpr.Operator) (a b : Block) : binaryBlocks op a b =
      if (numbersMeet a b || numbersMeet b a) && !isComparison op then .error .unsupported
      else pairGrid a.grid b.grid >>=
        combined op (numbersMeet a b || numbersMeet b a) (a.cellType.join b.cellType) := by
  unfold binaryBlocks combined
  cases pairGrid a.grid b.grid with
  | error fault => split <;> rfl
  | ok pairs =>
    cases numbersMeet a b || numbersMeet b a
    · cases a.cellType.join b.cellType <;> rfl
    · cases isComparison op <;> rfl

end Value

namespace RowPair

variable (ρ : RowPair)

/-- Two blocks of one sort: a single cell that is the same, or a column of cells each. -/
structure Blocks (lone : Bool) (a a' : Block) : Prop where
  sort : a.cellType = a'.cellType
  grids : ρ.Grids lone a.grid a'.grid

variable {ρ} {op : CallExpr.Operator}

lemma Grids.combined {d : CellType} (grids : ρ.Grids lone p p') :
    Both (ρ.Blocks lone) (combined op mixed d p) (combined op mixed d p') := by
  unfold Value.combined
  cases mixed with
  | true =>
    cases op
    case eq | ne => exact .ok ⟨rfl, grids.map _⟩
    all_goals exact .error
  | false =>
    cases d
    all_goals exact grids.mapGridM.bind fun _ _ cells => .ok ⟨rfl, cells⟩

lemma Blocks.isLoneObject {a : Block} (blocks : ρ.Blocks lone a a') :
    isLoneObject a = isLoneObject a' := by
  obtain ⟨sort, grids⟩ := blocks
  obtain ⟨d, g⟩ := a
  obtain ⟨d', g'⟩ := a'
  obtain rfl : d = d' := sort
  cases grids <;> cases d <;> rfl

lemma Blocks.numbersMeet {a b : Block} (left : ρ.Blocks lone a a') (right : ρ.Blocks lone' b b') :
    numbersMeet a b = numbersMeet a' b' := by
  unfold Value.numbersMeet
  rw [left.sort, right.sort, right.isLoneObject]

lemma Blocks.binaryBlocks {a b : Block} (left : ρ.Blocks lone a a')
    (right : ρ.Blocks lone' b b') :
    Both (ρ.Blocks (lone && lone')) (binaryBlocks op a b) (binaryBlocks op a' b') := by
  rw [binaryBlocks_eq, binaryBlocks_eq, ← left.numbersMeet right,
    ← right.numbersMeet left, ← left.sort, ← right.sort]
  exact .ite .error ((left.grids.pairGrid right.grids).bind fun _ _ pairs => pairs.combined)

end RowPair

/-! ### Single values -/

namespace Datum

open CallExpr (Operator Sign)

def isList : Datum → Bool
  | .list _ => true
  | _ => false

lemma numeric_single (ofInts : ∀ m n d, ints m n = .ok d → d.isList = false)
    (ofFloats : ∀ x y d, floats x y = .ok d → d.isList = false)
    (ofComplexes : ∀ z w d, complexes z w = .ok d → d.isList = false)
    (done : numeric ints floats complexes a b = .ok c) : c.isList = false := by
  unfold numeric at done
  split at done
  · exact ofInts _ _ _ done
  · split at done
    · exact ofFloats _ _ _ done
    · split at done
      · exact ofComplexes _ _ _ done
      · cases done

lemma complexPower_single (done : complexPower z w = .ok c) : c.isList = false := by
  unfold complexPower at done
  split at done
  · cases done
    rfl
  · split at done
    · split at done <;> cases done
      rfl
    · cases done
      rfl

lemma complexDiv_single (done : complexDiv z w = .ok c) : c.isList = false := by
  unfold complexDiv at done
  dsimp only at done
  split at done <;> cases done
  rfl

lemma power_single (done : power a b = .ok c) : c.isList = false := by
  have floats (x y : Float) (d : Datum) (done : (if x == 0.0 && y < 0.0 then .error .divisionByZero
    else if leavesReals x y then complexPower (x, 0.0) (y, 0.0)
    else .ok (.float (floatPower x y)) : Except Fault Datum) = .ok d) : d.isList = false := by
    split at done
    · cases done
    · split at done
      · exact complexPower_single done
      · cases done
        rfl
  refine numeric_single (fun m n d done => ?_) floats (fun z w d => complexPower_single) done
  split at done
  · cases done
    rfl
  · exact floats _ _ _ done

lemma sum_single (done : sum a b = .ok c) : c.isList = false := by
  apply numeric_single _ _ _ done <;> rintro _ _ _ ⟨⟩ <;> rfl

lemma difference_single (done : difference a b = .ok c) : c.isList = false := by
  apply numeric_single _ _ _ done <;> rintro _ _ _ ⟨⟩ <;> rfl

lemma product_single (done : product a b = .ok c) : c.isList = false := by
  apply numeric_single _ _ _ done <;> rintro _ _ _ ⟨⟩ <;> rfl

lemma divide_single (done : divide a b = .ok c) : c.isList = false := by
  refine numeric_single (fun m n d done => ?_) (fun x y d done => ?_)
    (fun z w d => complexDiv_single) done
  all_goals
    split at done
    · cases done
    · cases done
      rfl

lemma binary_single (left : a.isList = false) (right : b.isList = false)
    (done : binary op a b = .ok c) : c.isList = false := by
  unfold binary at done
  split at done
  · cases done
    rfl
  · cases left
  · exact sum_single done
  · exact difference_single done
  · split at done <;> cases done
    rfl
  · split at done <;> cases done
    rfl
  · cases left
  · cases right
  · exact product_single done
  · exact divide_single done
  · exact power_single done
  · cases done
    rfl
  · cases done
    rfl
  · obtain ⟨_, _, rfl⟩ := map_eq_ok.mp done
    rfl
  · obtain ⟨_, _, rfl⟩ := map_eq_ok.mp done
    rfl
  · obtain ⟨_, _, done⟩ := bind_eq_ok.mp done
    cases done
    rfl
  · obtain ⟨_, _, done⟩ := bind_eq_ok.mp done
    cases done
    rfl

lemma unary_single (done : unary sign a = .ok c) : c.isList = false := by
  unfold unary at done
  split at done
  case h_5 =>
    split at done <;> cases done
    rfl
  all_goals
    cases done
    rfl
end Datum

/-! ### Values -/

namespace Value

/-- A single value that is no list. -/
inductive Lone : Value → Prop
  | datum {d : Datum} (single : d.isList = false) : Lone (.datum d)
  | cell (d : Datum) : Lone (.cell d)

/-! What an operation does with columns and single values, by the types of the columns. -/

def isDate : ColumnType → Bool
  | .date => true
  | _ => false

variable (op : CallExpr.Operator)

lemma binary_column_cell (c : Column) (d : Datum) :
    binary op (.series c) (.cell d) = match c.type with
      | .category categories ordered => categoryWithDatum op false c categories ordered d
      | .date => onlyDiffers op (some c.cells.length)
      | .plain _ =>
        (binaryBlocks op c.values ⟨cellTypeOf d, .deep [] [d]⟩).map (wrapResult true) := by
  obtain ⟨t, cells⟩ := c
  cases t <;> rfl

lemma binary_column_datum (c : Column) (single : d.isList = false) :
    binary op (.series c) (.datum d) = binary op (.series c) (.cell d) := by
  obtain ⟨t, cells⟩ := c
  cases d with
  | list xs => cases single
  | _ => cases t <;> rfl

lemma binary_datum_column (c : Column) (single : d.isList = false) :
    binary op (.datum d) (.series c) = binary op (.cell d) (.series c) := by
  obtain ⟨t, cells⟩ := c
  cases d with
  | list xs => cases single
  | _ => cases t <;> rfl

lemma binary_cell_column (c : Column) (d : Datum) :
    binary op (.cell d) (.series c) = match c.type with
      | .category categories ordered => categoryWithDatum op true c categories ordered d
      | .date => onlyDiffers op (some c.cells.length)
      | .plain _ =>
        (binaryBlocks op ⟨cellTypeOf d, .deep [] [d]⟩ c.values).map (wrapResult true) := by
  obtain ⟨t, cells⟩ := c
  cases t <;> rfl

lemma binary_columns (c c' : Column) :
    binary op (.series c) (.series c') = match c.type, c'.type with
      | .category categories ordered, .category others _ =>
        categoryWithCategory op c c' categories others ordered
      | t, t' =>
        if (c.isCategory || c'.isCategory) && !(op == .eq || op == .ne) then .error .unsupported
        else if isDate t || isDate t' then onlyDiffers op (some c.cells.length)
        else (binaryBlocks op c.values c'.values).map (wrapResult true) := by
  obtain ⟨t, cells⟩ := c
  obtain ⟨t', cells'⟩ := c'
  cases t <;> cases t' <;> cases op <;> rfl

end Value

namespace RowPair

variable (ρ : RowPair)

/-- Two values of an expression on two frames: the same single one, or columns of one sort that have
the same cell in the two rows. -/
inductive Values : Value → Value → Prop
  | lone {v : Value} (single : v.Lone) : Values v v
  | series {c c' : Column} (type : c.type = c'.type)
    (sort : c.values.cellType = c'.values.cellType) (cells : ρ.Lists c.cells c'.cells) :
    Values (.series c) (.series c')

variable {ρ}

lemma blocks_values {c : Column} (type : c.type = c'.type)
    (sort : c.values.cellType = c'.values.cellType) (cells : ρ.Lists c.cells c'.cells) :
    ρ.Blocks false c.values c'.values := by
  refine ⟨sort, ?_⟩
  unfold Column.values at sort ⊢
  rw [← type] at sort ⊢
  cases kind : c.type with
  | plain d | date => exact .column cells
  | category categories ordered =>
    simp only [kind] at sort ⊢
    rw [sort]
    exact .column (cells.map _)

/-- Values of expressions have blocks, and those of a column are columns. -/
lemma Values.block? (values : ρ.Values v v') :
    ∃ a a', v.block? = .ok (some a) ∧ v'.block? = .ok (some a') ∧ v.isSeries = v'.isSeries ∧
      ρ.Blocks (!v.isSeries) a a' := by
  cases values with
  | series type sort cells => exact ⟨_, _, rfl, rfl, rfl, blocks_values type sort cells⟩
  | lone single =>
    cases single with
    | cell d => exact ⟨_, _, rfl, rfl, rfl, rfl, .lone d⟩
    | @datum d single =>
      refine ⟨⟨cellTypeOf d, .deep [] [d]⟩, ⟨cellTypeOf d, .deep [] [d]⟩, ?_, ?_, rfl, rfl, .lone d⟩
      all_goals
        cases d with
        | list xs => cases single
        | _ => rfl

lemma Blocks.wrapResult {b : Block} (blocks : ρ.Blocks lone b b') :
    ρ.Values (wrapResult (!lone) b) (wrapResult (!lone) b') := by
  obtain ⟨sort, grids⟩ := blocks
  obtain ⟨d, g⟩ := b
  obtain ⟨d', g'⟩ := b'
  obtain rfl : d = d' := sort
  cases grids with
  | lone x => exact .lone (.cell x)
  | column lists => exact .series rfl rfl lists

variable {op : CallExpr.Operator}

lemma Lists.replicate {α β : Type} {xs xs' : List α} (lists : ρ.Lists xs xs') (x : β) :
    ρ.Lists (List.replicate xs.length x) (List.replicate xs'.length x) := by
  simpa [map_const'] using lists.map fun _ => x

lemma Lists.onlyDiffers (lists : ρ.Lists cells cells') :
    Both ρ.Values (onlyDiffers op (some cells.length)) (onlyDiffers op (some cells'.length)) := by
  cases op
  case eq | ne => exact .ok (.series rfl rfl (lists.replicate _))
  all_goals exact .error

lemma Lists.categoryWithDatum {c : Column} (lists : ρ.Lists c.cells c'.cells) {flip : Bool} :
    Both ρ.Values (categoryWithDatum op flip c categories ordered d)
      (categoryWithDatum op flip c' categories ordered d) := by
  exact .ite (lists.mapM.bind fun _ _ cells => .ok (.series rfl rfl cells)) .error

lemma Lists.categoryWithCategory {c e e' : Column} (left : ρ.Lists c.cells c'.cells)
    (right : ρ.Lists e.cells e'.cells) :
    Both ρ.Values (categoryWithCategory op c e categories others ordered)
      (categoryWithCategory op c' e' categories others ordered) := by
  exact .ite ((left.zipWith right Prod.mk).mapM.bind fun _ _ cells =>
    .ok (.series rfl rfl cells)) .error

lemma Blocks.binaryColumns {a b : Block} (left : ρ.Blocks lone a a') (right : ρ.Blocks lone' b b')
    (column : (lone && lone') = false) :
    Both ρ.Values ((Value.binaryBlocks op a b).map (Value.wrapResult true))
      ((Value.binaryBlocks op a' b').map (Value.wrapResult true)) := by
  refine (left.binaryBlocks right).map fun _ _ blocks => ?_
  rw [column] at blocks
  exact blocks.wrapResult

section

variable {c : Column} (type : c.type = c'.type) (sort : c.values.cellType = c'.values.cellType)
  (cells : ρ.Lists c.cells c'.cells)
include type sort cells

/-- An operation on a column and a single value. -/
lemma Lists.binaryCell :
    Both ρ.Values (Value.binary op (.series c) (.cell d)) (Value.binary op (.series c') (.cell d)) := by
  rw [Value.binary_column_cell, Value.binary_column_cell, ← type]
  cases c.type with
  | category categories ordered => exact cells.categoryWithDatum
  | date => exact cells.onlyDiffers
  | plain t => exact (blocks_values type sort cells).binaryColumns ⟨rfl, .lone d⟩ rfl

lemma Lists.cellBinary :
    Both ρ.Values (binary op (.cell d) (.series c)) (binary op (.cell d) (.series c')) := by
  rw [binary_cell_column, binary_cell_column, ← type]
  cases c.type with
  | category categories ordered => exact cells.categoryWithDatum
  | date => exact cells.onlyDiffers
  | plain t =>
    have lone : ρ.Blocks true ⟨cellTypeOf d, .deep [] [d]⟩ _ := ⟨rfl, .lone d⟩
    exact lone.binaryColumns (blocks_values type sort cells) rfl

/-- An operation on two columns. -/
lemma Lists.binaryColumn (type' : e.type = e'.type)
    (sort' : e.values.cellType = e'.values.cellType) (cells' : ρ.Lists e.cells e'.cells) :
    Both ρ.Values (binary op (.series c) (.series e)) (binary op (.series c') (.series e')) := by
  have category : c'.isCategory = c.isCategory := by rw [Column.isCategory, Column.isCategory, type]
  have category' : e'.isCategory = e.isCategory := by
    rw [Column.isCategory, Column.isCategory, type']
  rw [binary_columns, binary_columns, ← type, ← type', category, category']
  cases c.type <;> cases e.type
  case category.category => exact cells.categoryWithCategory cells'
  all_goals exact .ite .error (.ite cells.onlyDiffers
    ((blocks_values type sort cells).binaryColumns (blocks_values type' sort' cells') rfl))

end

/-- An operation on single values gives a single value. -/
lemma lone_binary {a b : Value} (left : a.Lone) (right : b.Lone)
    (done : binary op a b = .ok v) : v.Lone := by
  -- Blocks of single cells give a single cell, in whichever rows.
  have blocks (d e : Datum) (done : binary op (.cell d) (.cell e) = .ok v) : v.Lone := by
    obtain ⟨c, combined, rfl⟩ := map_eq_ok.mp done
    have left : Blocks ⟨0, 0, 0, 0⟩ true ⟨cellTypeOf d, .deep [] [d]⟩ _ := ⟨rfl, .lone d⟩
    have right : Blocks ⟨0, 0, 0, 0⟩ true ⟨cellTypeOf e, .deep [] [e]⟩ _ := ⟨rfl, .lone e⟩
    obtain ⟨sort, grids⟩ := left.binaryBlocks right combined combined
    obtain ⟨t, g⟩ := c
    cases grids with
    | lone x => exact .cell x
  cases left with
  | cell d =>
    cases right with
    | cell e => exact blocks d e done
    | @datum e single =>
      apply blocks d e
      rw [← done]
      cases e with
      | list xs => cases single
      | _ => rfl
  | @datum d single =>
    cases right with
    | cell e =>
      apply blocks d e
      rw [← done]
      cases d with
      | list xs => cases single
      | _ => rfl
    | @datum e single' =>
      obtain ⟨c, combined, done⟩ := bind_eq_ok.mp done
      cases done
      exact .datum (Datum.binary_single single single' combined)

lemma Values.binary {a a' b b' : Value} (left : ρ.Values a a') (right : ρ.Values b b') :
    Both ρ.Values (binary op a b) (binary op a' b') := by
  cases left with
  | lone single =>
    cases right with
    | lone single' => exact .same fun _ done => .lone (lone_binary single single' done)
    | series type sort cells =>
      cases single with
      | cell d => exact Lists.cellBinary type sort cells
      | datum single =>
        rw [binary_datum_column _ _ single, binary_datum_column _ _ single]
        exact Lists.cellBinary type sort cells
  | series type sort cells =>
    cases right with
    | lone single =>
      cases single with
      | cell d => exact Lists.binaryCell type sort cells
      | datum single =>
        rw [binary_column_datum _ _ single, binary_column_datum _ _ single]
        exact Lists.binaryCell type sort cells
    | series type' sort' cells' => exact Lists.binaryColumn type sort cells type' sort' cells'

lemma Values.unary {sign : CallExpr.Sign} {a a' : Value} (values : ρ.Values a a') :
    Both ρ.Values (unary sign a) (unary sign a') := by
  cases values with
  | lone single =>
    refine .same fun v done => ?_
    cases single with
    | cell d =>
      obtain ⟨c, _, done⟩ := bind_eq_ok.mp done
      cases done
      exact .lone (.cell c)
    | datum single =>
      obtain ⟨c, negated, done⟩ := bind_eq_ok.mp done
      cases done
      exact .lone (.datum (Datum.unary_single negated))
  | @series c c' type sort cells =>
    simp only [Value.unary, ← type]
    cases c.type with
    | plain t => exact cells.mapM.bind fun _ _ mapped => .ok (.series rfl rfl mapped)
    | _ => exact .error

/-! ### Elementwise functions -/

lemma Values.isSeries (values : ρ.Values v v') : v.isSeries = v'.isSeries := by
  cases values <;> rfl

lemma Values.workingBlock (values : ρ.Values v v') :
    Both (ρ.Blocks (!v.isSeries)) (Function.workingBlock v) (Function.workingBlock v') := by
  cases values with
  | lone single =>
    cases single with
    | cell d => exact .ok ⟨rfl, .lone d⟩
    | @datum d single =>
      cases d with
      | list xs => cases single
      | _ => exact .ok ⟨rfl, .lone _⟩
  | @series c c' type sort cells =>
    obtain ⟨t, xs⟩ := c
    obtain ⟨t', xs'⟩ := c'
    obtain rfl : t = t' := type
    cases t with
    | plain d => exact .ok ⟨rfl, .column cells⟩
    | _ => exact .error

lemma Values.mapElements {f : Function} {a a' : Value} (values : ρ.Values a a') :
    Both ρ.Values (Function.mapElements f a) (Function.mapElements f a') := by
  refine values.workingBlock.bind fun b b' blocks => ?_
  rw [← blocks.sort, ← values.isSeries]
  refine blocks.grids.mapGridM.bind fun cells cells' mapped => .ok ?_
  have result : ρ.Blocks (!a.isSeries) ⟨Function.elementwiseType f b.cellType, cells⟩
      ⟨Function.elementwiseType f b.cellType, cells'⟩ := ⟨rfl, mapped⟩
  simpa using result.wrapResult

lemma Values.powerOf {a a' b b' : Value} (left : ρ.Values a a') (right : ρ.Values b b') :
    Both ρ.Values (Function.powerOf a b) (Function.powerOf a' b') := by
  refine left.workingBlock.bind fun _ _ blocks => right.workingBlock.bind fun _ _ blocks' =>
    (blocks.binaryBlocks blocks').bind fun _ _ result => .ok ?_
  have wrapped := result.wrapResult
  rw [← Bool.not_or, Bool.not_not] at wrapped
  rwa [← left.isSeries, ← right.isSeries]

end RowPair

end ModelFormula
