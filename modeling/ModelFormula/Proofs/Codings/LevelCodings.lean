import ModelFormula.Proofs.Codings.LevelSearch
import ModelFormula.Proofs.Codings.Widths

/-!
# The coding of levels

The row of a cell has a one in the column of its level and zeros elsewhere. A new cell that has none
of the levels gets zeros alone.
-/
namespace ModelFormula

open List Block

variable {full : Bool} {levels cells : List Datum} {c : ContrastMatrix} {x : Datum}

/-- The levels that have columns. -/
def Contrast.shown (full : Bool) (levels : List Datum) : List Datum :=
  if full then levels else levels.tail

/-- Only the coding of all levels is one by whole numbers. -/
def Contrast.cellType (full : Bool) : CellType := if full then .int else .float

/-- One in the column of the level of a cell, and zero in all others. -/
def Levels.indicators (d : CellType) (shown : List Datum) (x : Datum) : List Datum :=
  shown.map fun l => convert d (.int (if l == x then 1 else 0))

/-- None of the levels is equal to the cell. -/
def Levels.Unseen (levels : List Datum) (x : Datum) : Prop := ∀ l ∈ levels, (l == x) = false

open Contrast Levels

lemma Levels.Increasing.beq_iff (increasing : Increasing levels) (level : x.isLevel)
    (found : levels.findIdx? (· == x) = some p) (item : levels[k]? = some l) :
    (l == x) ↔ k = p := by
  obtain ⟨inside, same, _⟩ := List.findIdx?_eq_some_iff_getElem.mp found
  obtain ⟨bound, rfl⟩ := List.getElem?_eq_some_iff.mp item
  have ranks := List.pairwise_iff_getElem.mp increasing.sorted
  rw [Datum.beq_iff_rank (increasing.proper _ (List.getElem_mem _)) level] at same ⊢
  constructor
  · intro eq
    rcases Nat.lt_trichotomy k p with less | here | more
    · exact absurd (eq.trans same.symm) (ranks k p bound inside less).ne
    · exact here
    · exact absurd (same.trans eq.symm) (ranks p k inside bound more).ne
  · rintro rfl
    exact same

/-! ### Contrasts -/

/-- What a treatment contrast looks like. -/
structure Codes (full : Bool) (levels : List Datum) (c : ContrastMatrix) : Prop where
  cellType : c.matrix.cellType = cellType full
  width : c.width = (shown full levels).length
  labels : c.labels = (shown full levels).map Datum.plain
  height : c.rows.length = levels.length
  rows : Increasing levels → ∀ x, x.isLevel = true → ∀ p, levels.findIdx? (· == x) = some p →
    c.rows[p]? = some (indicators (Contrast.cellType full) (shown full levels) x)

lemma map_eq_indicators {items : List Datum} {row : List Int} {d : CellType}
    (long : row.length = items.length)
    (entry : ∀ (k : Nat) l z, items[k]? = some l → row[k]? = some z → z = if l == x then 1 else 0) :
    row.map (fun z => convert d (.int z)) = indicators d items x := by
  refine ext_getElem (by simp [indicators, long]) fun k bound bound' => ?_
  have inside : k < row.length := by simpa using bound
  have inside' : k < items.length := by simpa [indicators] using bound'
  have same := entry k items[k] row[k] (getElem?_eq_getElem inside') (getElem?_eq_getElem inside)
  simp only [indicators, getElem_map, same]

lemma indicators_of_unseen (unseen : Unseen levels x) :
    indicators .float levels x = List.replicate levels.length (.float 0.0) := by
  have zero : convert .float (.int 0) = .float 0.0 :=
    congrArg Datum.float (show Float.ofInt 0 = 0.0 by decide +kernel)
  rw [indicators, map_congr_left fun l mem => by rw [unseen l mem]]
  simp [zero]

lemma mem_of_mem_shown (mem : l ∈ shown full levels) : l ∈ levels := by
  cases full with
  | true => exact mem
  | false => exact mem_of_mem_tail mem

lemma unitRows_getElem? (inside : p < n) : (unitRows n)[p]? = some (unitRow n p) := by
  simp [unitRows, inside]

lemma unitRow_entry (entry : (unitRow n p)[k]? = some z) : z = if k = p then 1 else 0 := by
  obtain ⟨inside, rfl⟩ := List.getElem?_eq_some_iff.mp entry
  simp [unitRow]

lemma codes_of_code (coding : (Contrast.treatment .default).code full levels = .ok c) :
    Codes full levels c := by
  cases full with
  | true =>
    cases coding
    refine ⟨rfl, rfl, rfl, by simp [treatmentFull, ContrastMatrix.rows, ofInts, unitRows],
      fun increasing x level p found => ?_⟩
    obtain ⟨inside, _⟩ := findIdx?_eq_some_iff_getElem.mp found
    have row : (unitRow levels.length p).map (fun z => convert .int (.int z)) =
        indicators .int levels x := by
      refine map_eq_indicators (by simp [unitRow]) fun k l z item entry => ?_
      simp only [unitRow_entry entry, increasing.beq_iff level found item]
    rw [shown, if_pos rfl, Contrast.cellType, if_pos rfl, ← row]
    simp only [treatmentFull, ContrastMatrix.rows, ofInts, getElem?_map, unitRows_getElem? inside]
    rfl
  | false =>
    simp only [Contrast.code, treatmentReduced, Choice.default, referenceIndex, ok_bind] at coding
    split at coding
    · cases coding
    next nonempty =>
    cases coding
    obtain ⟨first, rest, rfl⟩ := exists_cons_of_ne_nil (by simpa using nonempty)
    have rows : unitRowsWith rest.length 0 0 = List.replicate rest.length 0 :: unitRows rest.length :=
      rfl
    refine ⟨rfl, rfl, rfl, ?_, fun increasing x level p found => ?_⟩
    · simp [ContrastMatrix.rows, convertTo, ofInts, Grid.map, Matrix.map, rows, unitRows]
    · have one (k : Nat) (l : Datum) (item : rest[k]? = some l) : (l == x) ↔ k + 1 = p :=
        increasing.beq_iff level found item
      obtain ⟨inside, _⟩ := findIdx?_eq_some_iff_getElem.mp found
      -- the first level has no column, and every other one the column in front of its place
      obtain ⟨row, taken, entry⟩ : ∃ row, (unitRowsWith rest.length 0 0)[p]? = some row ∧
          row.map (fun z => convert .float (.int z)) = indicators .float rest x := by
        rw [rows]
        cases p with
        | zero =>
          refine ⟨_, rfl, map_eq_indicators (by simp) fun k l z item entry => ?_⟩
          rw [(mem_replicate.mp (mem_of_getElem? entry)).2, if_neg]
          exact fun same => Nat.succ_ne_zero k ((one k l item).mp same)
        | succ p =>
          refine ⟨_, unitRows_getElem? (by simpa using inside),
            map_eq_indicators (by simp [unitRow]) fun k l z item entry => ?_⟩
          simp only [unitRow_entry entry, one k l item, Nat.add_right_cancel_iff]
      rw [shown, if_neg Bool.false_ne_true, Contrast.cellType, if_neg Bool.false_ne_true,
        tail_cons, ← entry]
      simp [ContrastMatrix.rows, convertTo, ofInts, Grid.map, Matrix.map, taken, Function.comp_def]

lemma Codes.numeric (codes : Codes full levels c) : c.matrix.cellType.isNumeric := by
  rw [codes.cellType]
  cases full <;> rfl

lemma length_shown (full : Bool) (levels : List Datum) :
    (shown full levels).length = codedWidth full levels.length := by
  cases full <;> simp [shown, codedWidth]

lemma exists_code (nonempty : levels ≠ []) (full : Bool) :
    ∃ c, (treatment .default).code full levels = .ok c := by
  cases full with
  | true => exact ⟨_, rfl⟩
  | false =>
    obtain ⟨first, rest, rfl⟩ := exists_cons_of_ne_nil nonempty
    exact ⟨_, rfl⟩

/-! ### Cells -/

/-- Cells that the search finds are coded by indicators. -/
lemma code_eq (codes : Codes full levels c) (increasing : Increasing levels)
    (proper : ∀ x ∈ cells, x.isLevel) (known : ∀ x ∈ cells, ∃ l ∈ levels, l.rank = x.rank)
    (vector : b.grid = .vector cells) (searches : ∀ x ∈ cells, ∃ i, lowerBound levels x = .ok i) :
    code c levels b = .ok ⟨cellType full, .matrix ⟨(shown full levels).length,
      cells.map (indicators (cellType full) (shown full levels))⟩⟩ := by
  let place (x : Datum) : Nat := (levels.findIdx? (· == x)).getD 0
  have each (x : Datum) (mem : x ∈ cells) : lowerBound levels x = .ok (place x) ∧ row c (place x) =
        .ok (indicators (cellType full) (shown full levels) x) := by
    obtain ⟨i, done⟩ := searches x mem
    have found := findIdx?_of_lowerBound increasing (proper x mem) (known x mem) done
    have here : place x = i := by simp [place, found]
    rw [here, row, codes.rows increasing x (proper x mem) i found]
    exact ⟨done, rfl⟩
  have searched : cells.mapM (lowerBound levels) = .ok (cells.map place) :=
    mapM_eq_map fun x mem => (each x mem).1
  have taken : (cells.map place).mapM (row c) =
      .ok (cells.map (indicators (cellType full) (shown full levels))) := by
    rw [mapM_map]
    exact mapM_eq_map fun x mem => (each x mem).2
  simp only [Levels.code, vector, Grid.cells, searched, taken, ok_bind, codes.cellType,
    codes.width, shape]
  rfl

lemma searches_of_code (vector : b.grid = .vector cells) (coded : code c levels b = .ok v) :
    ∀ x ∈ cells, ∃ i, lowerBound levels x = .ok i := by
  obtain ⟨places, searched, _⟩ := bind_eq_ok.mp coded
  rw [vector, mapM_ok_iff] at searched
  have each := searched.imp fun x i done => And.intro (Exists.intro i done) done
  exact ((forall₂_and_left _ _).mp each).1

/-- A new cell is coded by indicators, whether it has one of the levels or not. -/
lemma variableRow_eq (codes : Codes full levels c) (increasing : Increasing levels)
    (level : x.isLevel) :
    Component.variableRow c levels x = indicators .float (shown full levels) x := by
  have again (n : Int) : convert .float (convert (Contrast.cellType full) (.int n)) =
        convert .float (.int n) := by
    cases full <;> rfl
  unfold Component.variableRow
  split
  next p found =>
    rw [codes.rows increasing x level p found]
    simp [indicators, again]
  next none =>
    have unseen : Unseen (shown full levels) x := fun l mem => by
      simpa using findIdx?_eq_none_iff.mp none l (mem_of_mem_shown mem)
    rw [codes.width, indicators_of_unseen unseen]

/-- The distinct members of a list are members, and each member is equal to one of them. -/
lemma distinct_spec (proper : ∀ x ∈ xs, x.isLevel) :
    (∀ y ∈ Datum.distinct xs, y ∈ xs) ∧ ∀ x ∈ xs, ∃ y ∈ Datum.distinct xs, (y == x) := by
  induction xs using List.reverseRecOn with
  | nil => simp [Datum.distinct]
  | append_singleton xs x ih =>
    have step : Datum.distinct (xs ++ [x]) = if (Datum.distinct xs).any (· == x) then
        Datum.distinct xs else Datum.distinct xs ++ [x] := by
      simp [Datum.distinct]
    obtain ⟨sound, complete⟩ := ih fun y mem => proper y (mem_append_left _ mem)
    have level := proper x (by simp)
    have self : x == x := (Datum.beq_iff_rank level level).mpr rfl
    rw [step]
    split
    next old =>
      obtain ⟨y, among, same⟩ := any_eq_true.mp old
      grind
    next => grind

lemma indicators_congr (proper : ∀ l ∈ levels, l.isLevel) (left : x.isLevel)
    (right : y.isLevel) (same : x.rank = y.rank) :
    indicators d levels x = indicators d levels y := by
  refine map_congr_left fun l mem => ?_
  have alike : (l == x) = (l == y) := by
    rw [Bool.eq_iff_iff, Datum.beq_iff_rank (proper l mem) left,
      Datum.beq_iff_rank (proper l mem) right, same]
  rw [alike]

/-- The order of the levels does not matter: a cell has the row of its level. -/
lemma recode_eq (e : Component.Enumeration) (codes : Codes full levels c)
    (increasing : Increasing levels) (proper : ∀ x ∈ cells, x.isLevel) :
    Component.recode e c levels cells =
      .ok (cells.map (indicators .float (shown full levels))) := by
  have all : ∀ y ∈ levels ++ cells, y.isLevel := forall_mem_append.mpr ⟨increasing.proper, proper⟩
  obtain ⟨sound, complete⟩ := distinct_spec all
  have perm := e.perm (Datum.distinct (levels ++ cells))
  refine mapM_eq_map fun x mem => ?_
  obtain ⟨y, among, same⟩ := complete x (mem_append_right _ mem)
  have inside : (e.order (Datum.distinct (levels ++ cells))).findIdx (· == x) < _ :=
    findIdx_lt_length_of_exists ⟨y, perm.mem_iff.mpr among, same⟩
  have level := all _ (sound _ (perm.mem_iff.mp (getElem_mem inside)))
  -- the level at the place that is found has the rank of the cell
  have found := (Datum.beq_iff_rank level (proper x mem)).mp (findIdx_getElem (w := inside))
  rw [getElem?_map, getElem?_eq_getElem inside, Option.map_some, variableRow_eq codes increasing level]
  exact congrArg Except.ok (indicators_congr (fun l own => increasing.proper l (mem_of_mem_shown own))
    level (proper x mem) found)

/-- New cells are looked up one by one. -/
lemma codeVariable_eq (e : Component.Enumeration) (codes : Codes full levels c)
    (increasing : Increasing levels) (vector : y.values.grid = .vector cells)
    (proper : ∀ x ∈ cells, x.isLevel) (levelsOf : st.levels = some levels)
    (contrastOf : st.contrast = some c) :
    Component.codeVariable e st (.series y) = .ok ⟨.float, .matrix ⟨(shown full levels).length,
      cells.map (indicators .float (shown full levels))⟩⟩ := by
  simp only [Component.codeVariable, Component.itemsOf, vector, Grid.cells,
    Component.fittedLevels, Component.fittedContrast, levelsOf, contrastOf, ok_bind]
  -- no cell is a fraction that is no number
  rw [if_neg, codes.width, recode_eq e codes increasing proper]
  · rfl
  · rw [any_eq_true]
    rintro ⟨y, mem, nan⟩
    have level := proper y mem
    cases y with
    | float v =>
      rw [Datum.isLevel, Bool.not_eq_true'] at level
      exact absurd (nan.symm.trans level) (by decide)
    | null | bool | int | complex | text | list | record => cases nan

/-! ### Components -/

namespace Component

variable {st : State} {spans : Datum}

lemma ends_setLevels {x : Value} (block : x.block? = .ok (some b)) :
    Ends (setLevels x spans) st () st' ↔ ∃ levels c v, ofValue x = .ok levels ∧
      (treatment .default).code spans.truthy levels = .ok c ∧
      code c levels b = .ok v ∧ { st with
        levels := some levels, contrast := some c, value := some v, spansIntercept := spans } = st' := by
  have cells : codedBlock x = .ok b := by
    simp only [codedBlock, block, ok_bind]
    rfl
  simp only [setLevels, cells, ends_bind, ends_lift, ends_modify]
  constructor
  · rintro ⟨levels, _, ⟨known, rfl⟩, _, _, rfl, c, _, ⟨coding, rfl⟩, _, _, rfl, _, _, ⟨eq, rfl⟩,
      v, _, ⟨coded, rfl⟩, rfl⟩
    cases eq
    exact ⟨levels, c, v, known, coding, coded, rfl⟩
  · rintro ⟨levels, c, v, known, coding, coded, rfl⟩
    exact ⟨levels, _, ⟨known, rfl⟩, ⟨⟩, _, rfl, c, _, ⟨coding, rfl⟩, ⟨⟩, _, rfl, b, _, ⟨rfl, rfl⟩,
      v, _, ⟨coded, rfl⟩, rfl⟩

/-- The levels are those of the column: the component is a categoric variable, but no response with a
reference level, or a categoric call whose value brings no levels of its own. -/
def CodesLevels (atom : Atom) (st : State) : Prop :=
  st.kind = some .categoric ∧ match atom with
    | .variable _ reference => st.isResponse = true → reference = none
    | .call _ => ∀ box, st.column ≠ .box box
    | .stray _ => False

lemma CodesLevels.ends_setData {atom : Atom} (codes : CodesLevels atom st) :
    Ends (setData atom spans) st () st' ↔ Ends (setLevels st.column spans) st () st' := by
  obtain ⟨kind, own⟩ := codes
  cases atom with
  | «variable» name reference =>
    simp only [setData, setVariableData, ends_bind, ends_get, exists_and_left, exists_eq_left',
      and_assoc, kind]
    split
    next r response => cases own response
    · rfl
  | call e =>
    -- only a value with levels of its own is coded in another way
    simp only [setData, setCallData, ends_bind, ends_get, exists_and_left, exists_eq_left',
      and_assoc, kind]
  | stray => exact own.elim

/-- A categoric variable looks the cells of its new column up. -/
lemma ends_variableNewData {f : Frame} {name : Literal} (found : f.column? name = some y)
    (coded : codeVariable e st (.series y) = .ok b) (kind : st.kind = some .categoric) :
    Ends (variableNewData e name (.frame f)) st b st := by
  have column : columnOf (.frame f) name = .ok (.series y) := by simp [columnOf, found]
  simp only [variableNewData, column, ends_bind, ends_lift, ends_get]
  refine ⟨_, _, ⟨rfl, rfl⟩, _, _, ⟨rfl, rfl⟩, ?_⟩
  rw [kind]
  exact ends_lift.mpr ⟨coded, rfl⟩

end Component

/-! ### Variables -/

/-- What a fitted variable knows: the numbers of its column, or how its levels are coded. -/
inductive Settled (x : Column) (flag : Bool) (st : Component.State) : Prop
  | numeric (kind : st.kind = some .numeric) (numeric : x.isNumeric = true)
      (value : st.value = some x.values)
  | categoric {levels : List Datum} {c : ContrastMatrix} {v : Block}
      (kind : st.kind = some .categoric) (known : ofValue (.series x) = .ok levels)
      (coding : (treatment .default).code flag levels = .ok c)
      (coded : code c levels x.values = .ok v) (levelsOf : st.levels = some levels)
      (contrastOf : st.contrast = some c) (value : st.value = some v)

section Settled

variable {x : Column} {flag : Bool} {st : Component.State}

/-- The coding counts only for levels. -/
lemma Settled.of_flag (settled : Settled x flag st)
    (same : st.kind = some .categoric → flag = flag') : Settled x flag' st := by
  cases settled with
  | numeric kind numeric value => exact .numeric kind numeric value
  | categoric kind known coding coded levelsOf contrastOf value =>
    rw [same kind] at coding
    exact .categoric kind known coding coded levelsOf contrastOf value

/-- The kind and the coding decide what the numbers are. -/
lemma Settled.value_eq (settled : Settled x flag st) (settled' : Settled x flag st')
    (kind : st.kind = st'.kind) : st.value = st'.value := by
  cases settled with
  | numeric isNumeric _ value =>
    cases settled' with
    | numeric _ _ value' => rw [value, value']
    | categoric isCategoric => simp [isNumeric, isCategoric] at kind
  | categoric isCategoric known coding coded _ _ value =>
    cases settled' with
    | numeric isNumeric => simp [isNumeric, isCategoric] at kind
    | categoric _ known' coding' coded' _ _ value' =>
      cases known.symm.trans known'
      cases coding.symm.trans coding'
      rw [value, value', ← Except.ok.inj (coded.symm.trans coded')]

/-- Taking its numbers settles a variable that knows its column and kind. -/
lemma settled_of_setData (column : st.column = .series x)
    (kind : st.kind = some .numeric ∧ x.isNumeric ∨ st.kind = some .categoric)
    (plain : st.isResponse = false) (ends : Ends (Component.setData (.variable name r) d) st () st') :
    Settled x d.truthy st' := by
  rcases kind with ⟨kind, numeric⟩ | kind
  · have ends := ends_get_bind.mp ends
    simp only [kind, column, Component.setNumeric, ends_modify] at ends
    subst ends
    exact .numeric rfl numeric rfl
  · have codes : Component.CodesLevels (.variable name r) st := ⟨kind, by simp [plain]⟩
    rw [codes.ends_setData, column, Component.ends_setLevels rfl] at ends
    obtain ⟨levels, c, v, known, coding, coded, rfl⟩ := ends
    exact .categoric kind known coding coded rfl rfl rfl

end Settled

/-!
### Fitting the levels of a column

The levels of a column of texts or of numbers are found, and the component gets ones where a cell
has the level of a column and zeros elsewhere.
-/

variable {y : Datum}

namespace Levels

/-- Texts alone or numbers alone. -/
structure Comparable (cells : List Datum) : Prop where
  proper : ∀ x ∈ cells, x.isLevel = true
  alike : ∀ x ∈ cells, ∀ y ∈ cells, x.text?.isSome = y.text?.isSome

lemma exists_below (left : x.isLevel) (right : y.isLevel)
    (alike : x.text?.isSome = y.text?.isSome) : ∃ b, below x y = .ok b := by
  cases x <;> cases y <;> try cases alike
  all_goals first | cases left | cases right | skip
  all_goals simp_all [below, below.order, Datum.less?, Datum.int?, Datum.isLevel]

lemma Comparable.exists_below (comparable : Comparable cells) (left : x ∈ cells)
    (right : y ∈ cells) : ∃ b, below x y = .ok b :=
  Levels.exists_below (comparable.proper x left) (comparable.proper y right)
    (comparable.alike x left y right)

/-! ### The levels -/

lemma exists_insert (comparable : Comparable cells) (inside : levels ⊆ cells) (mem : x ∈ cells) :
    ∃ after, insert levels x = .ok after ∧ after ⊆ cells := by
  induction levels with
  | nil => exact ⟨[x], rfl, by simpa using mem⟩
  | cons y rest ih =>
    obtain ⟨own, others⟩ := cons_subset.mp inside
    obtain ⟨before, compared⟩ := comparable.exists_below mem own
    obtain ⟨behind, compared'⟩ := comparable.exists_below own mem
    obtain ⟨after, inserted, subset⟩ := ih others
    simp only [insert, compared, compared', inserted, ok_bind]
    cases before with
    | true => exact ⟨_, rfl, cons_subset.mpr ⟨mem, inside⟩⟩
    | false =>
      cases behind with
      | true => exact ⟨_, rfl, cons_subset.mpr ⟨own, subset⟩⟩
      | false => exact ⟨_, rfl, inside⟩

lemma exists_ofCells (comparable : Comparable cells) :
    ∃ levels, ofCells cells = .ok levels ∧ levels ⊆ cells := by
  -- each step puts in one of the cells
  have run (xs before : List Datum) (inside : xs ⊆ cells) (sofar : before ⊆ cells) :
      ∃ levels, xs.foldlM insert before = .ok levels ∧ levels ⊆ cells := by
    induction xs generalizing before with
    | nil => exact ⟨before, rfl, sofar⟩
    | cons x xs ih =>
      obtain ⟨own, others⟩ := cons_subset.mp inside
      obtain ⟨after, inserted, subset⟩ := exists_insert comparable sofar own
      simp only [foldlM_cons, inserted, ok_bind]
      exact ih after others subset
  exact run cells [] (Subset.refl _) (nil_subset _)

/-! ### The search -/

lemma exists_search {levels : Array Datum} (compared : ∀ l ∈ levels, ∃ b, below l key = .ok b)
    (low high : Nat) : ∃ i, search levels key low high = .ok i := by
  rw [search]
  split
  · dsimp only
    split
    next level found =>
      obtain ⟨b, below⟩ := compared level (Array.mem_of_getElem? found)
      simp only [below, ok_bind]
      cases b with
      | true => exact exists_search compared _ high
      | false => exact exists_search compared low _
    next => exact ⟨low, rfl⟩
  · exact ⟨low, rfl⟩
termination_by high - low

/-- The distinct values of some cells in increasing order. -/
structure AreOf (levels cells : List Datum) : Prop where
  increasing : levels.Pairwise fun l m => below l m = .ok true
  observed : levels ⊆ cells
  complete : ∀ x ∈ cells, ∃ l ∈ levels, (l == x) = true

lemma areOf_ofCells (comparable : Comparable cells) (done : ofCells cells = .ok levels)
    (observed : levels ⊆ cells) : AreOf levels cells := by
  obtain ⟨increasing, known⟩ := ofCells_increasing comparable.proper done
  refine ⟨?_, observed, fun x mem => ?_⟩
  · refine Pairwise.imp_of_mem (fun {l m} first second less => ?_) increasing.sorted
    obtain ⟨b, compared⟩ := comparable.exists_below (observed first) (observed second)
    rw [compared, (below_iff (increasing.proper l first) (increasing.proper m second) compared).mpr
      less]
  · obtain ⟨l, inside, same⟩ := known x mem
    exact ⟨l, inside, (Datum.beq_iff_rank (increasing.proper l inside)
      (comparable.proper x mem)).mpr same⟩

end Levels

/-! ### Components -/

namespace Component

variable {atom : Atom} {st : State} {b : Block}

/-- Every row of a fitted component has a one in the column of the level of its cell and zeros in the
others. There is a column for each of the distinct values in increasing order, labelled by its text,
or without the intercept for each but the first. The search never leaves the contrast matrix. -/
theorem setData_indicates (codes : CodesLevels atom st) (column : st.column.block? = .ok (some b))
    (vector : b.grid = .vector cells) (nonempty : cells ≠ [])
    (comparable : Levels.Comparable cells) (spans : Datum) :
    ∃ levels contrast, AreOf levels cells ∧ Ends (setData atom spans) st () { st with
        levels := some levels
        contrast := some contrast
        value := some ⟨cellType spans.truthy, .matrix ⟨(shown spans.truthy levels).length,
          cells.map (indicators (cellType spans.truthy) (shown spans.truthy levels))⟩⟩
        spansIntercept := spans } ∧
      contrast.labels = (shown spans.truthy levels).map Datum.plain ∧
      ∀ x ∈ cells, ∃ i, lowerBound levels x = .ok i ∧ i < contrast.rows.length := by
  obtain ⟨levels, found, observed⟩ := exists_ofCells comparable
  have areOf := areOf_ofCells comparable found observed
  obtain ⟨increasing, known⟩ := ofCells_increasing comparable.proper found
  have several : levels ≠ [] := by
    rintro rfl
    obtain ⟨x, member⟩ := exists_mem_of_ne_nil _ nonempty
    obtain ⟨l, inside, _⟩ := areOf.complete x member
    cases inside
  obtain ⟨c, coded⟩ := exists_code several spans.truthy
  have codes' := codes_of_code coded
  have searches (x : Datum) (member : x ∈ cells) : ∃ i, lowerBound levels x = .ok i :=
    exists_search (fun l inside => comparable.exists_below (observed (by simpa using inside)) member)
      0 levels.length
  refine ⟨levels, c, areOf, ?_, codes'.labels, fun x member => ?_⟩
  · have levelsOf : Levels.ofValue st.column = .ok levels := by
      simp only [Levels.ofValue, column, vector, Grid.cells, found, ok_bind]
    rw [codes.ends_setData, ends_setLevels column]
    exact ⟨levels, c, _, levelsOf, coded,
      code_eq codes' increasing comparable.proper known vector searches, rfl⟩
  · obtain ⟨i, done⟩ := searches x member
    obtain ⟨inside, _⟩ := findIdx?_eq_some_iff_getElem.mp
      (findIdx?_of_lowerBound increasing (comparable.proper x member) (known x member) done)
    exact ⟨i, done, by rwa [codes'.height]⟩

/-- Three cells of two levels. -/
def letterCells : List Datum := [.text "b", .text "a", .text "b"]

def letters : State := { kind := some .categoric, column := .series ⟨.plain .object, letterCells⟩ }

theorem setData_indicates_letters : ∃ levels contrast, AreOf levels letterCells ∧
    Ends (setData (.variable (.text "g") none) (.bool false)) letters () { letters with
      levels := some levels
      contrast := some contrast
      value := some ⟨.float, .matrix ⟨levels.tail.length,
        letterCells.map (indicators .float levels.tail)⟩⟩
      spansIntercept := .bool false } ∧
    contrast.labels = levels.tail.map Datum.plain ∧
    ∀ x ∈ letterCells, ∃ i, lowerBound levels x = .ok i ∧ i < contrast.rows.length :=
  setData_indicates ⟨rfl, fun _ => rfl⟩ rfl rfl (cons_ne_nil _ _) ⟨by decide, by decide⟩
    (.bool false)

end Component

end ModelFormula
