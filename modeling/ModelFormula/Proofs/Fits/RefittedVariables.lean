import ModelFormula.Proofs.Codings.LevelCodings
import ModelFormula.Proofs.Fits.EchoedBlocks

/-!
# A fitted variable on its own data

A categoric variable finds the levels of its cells by binary search when it is fitted and by
equality later; on the column that it was fitted to both find the same rows of its contrast matrix.
-/
namespace ModelFormula

open List

variable {d : CellType} {x : Column} {c : ContrastMatrix}

open Decimal

/-! ### Columns -/

/-- The cells of numbers of one sort. -/
def CellType.holds : CellType → Datum → Bool
  | bool, .bool _ | int, .int _ | float, .float _ => true
  | _, _ => false

/-- A column of a data frame in which nothing is missing: it has a cell for every row, numbers are of
the sort that it declares, and every cell is a text or a number. -/
structure Column.Clean (height : Nat) (c : Column) : Prop where
  tall : c.cells.length = height
  sort : ∀ d, c.type = .plain d → d.isNumeric = true → ∀ x ∈ c.cells, d.holds x = true
  complete : ∀ x ∈ c.values.grid.cells, x.isLevel = true

lemma Column.Clean.isLevel {h : Nat} {c : Column} (clean : c.Clean h) {cells : List Datum}
    (vector : c.values.grid = .vector cells) : ∀ x ∈ cells, x.isLevel := by
  have complete := clean.complete
  rwa [vector] at complete

/-- The levels of a clean column increase, and its coding indicates them. -/
lemma Column.Clean.code_eq (clean : x.Clean h) (known : Levels.ofValue (.series x) = .ok levels)
    (coding : (Contrast.treatment .default).code full levels = .ok c)
    (coded : Levels.code c levels x.values = .ok v) :
    Levels.Increasing levels ∧ ∃ cells, x.values.grid = .vector cells ∧ cells.length = h ∧
      v = ⟨Contrast.cellType full, .matrix ⟨(Contrast.shown full levels).length,
        cells.map (Levels.indicators (Contrast.cellType full) (Contrast.shown full levels))⟩⟩ := by
  obtain ⟨cells, vector, count⟩ := column_values_vector x
  have proper := clean.isLevel vector
  have known : Levels.ofCells cells = .ok levels := by
    simpa only [Levels.ofValue, Value.block?, vector, Grid.cells, ok_bind] using known
  obtain ⟨increasing, found⟩ := Levels.ofCells_increasing proper known
  cases coded.symm.trans (ModelFormula.code_eq (codes_of_code coding) increasing proper found vector
    (searches_of_code vector coded))
  exact ⟨increasing, cells, vector, count.trans clean.tall, rfl⟩

/-- A column of texts has no sort of numbers to keep to. -/
lemma clean_texts (texts : List String) :
    Column.Clean texts.length ⟨.plain .object, texts.map .text⟩ where
  tall := by simp
  sort d type numeric := by
    cases type
    cases numeric
  complete x mem := by
    obtain ⟨s, -, rfl⟩ := mem_map.mp mem
    rfl

lemma clean_ints (ns : List Int) : Column.Clean ns.length ⟨.plain .int, ns.map .int⟩ where
  tall := by simp
  sort d type _ x mem := by
    cases type
    obtain ⟨n, -, rfl⟩ := mem_map.mp mem
    rfl
  complete x mem := by
    obtain ⟨n, -, rfl⟩ := mem_map.mp mem
    rfl

/-- How large a whole number is; it counts at least as one. -/
def Datum.magnitude : Datum → Nat
  | int n => max 1 n.natAbs
  | _ => 1

/-- The whole number in a row of a column of numbers. -/
def Block.magnitude (b : Block) (i : Nat) : Nat :=
  match b.grid with
  | .vector xs => ((xs[i]?).map Datum.magnitude).getD 1
  | _ => 1

lemma Datum.magnitude_pos (x : Datum) : 0 < x.magnitude := by
  cases x <;> simp [magnitude]

lemma Block.magnitude_pos (b : Block) (i : Nat) : 0 < b.magnitude i := by
  unfold magnitude
  split
  · next xs _ =>
    cases found : xs[i]? with
    | none => simp
    | some x => simpa using x.magnitude_pos
  · exact Nat.one_pos

/-- A number echoes itself. -/
lemma Echo.refl {w : Prop} {x : Datum} (holds : d.holds x) : Echo w x.magnitude d d x x := by
  match d, x with
  | .bool, .bool b => exact .bool b
  | .int, .int n => exact .int fun _ => Nat.le_max_right 1 _
  | .float, .float v => exact .float (.inl rfl)

lemma CellType.Echo.refl (numeric : d.isNumeric) : CellType.Echo w d d := by
  match d with
  | .bool => exact .bool
  | .int => exact .int
  | .float => exact .float

/-- Columns with the same cells in rows that belong to each other. If the first has numbers, those of
the second are of the same sort. -/
structure Column.Alike (ρ : Pairing) (x y : Column) : Prop where
  clean : x.Clean ρ.height
  clean' : y.Clean ρ.height'
  sort : x.isNumeric = true → y.type = x.type
  cells : ∀ i j, ρ.Rows i j → x.values.grid.cells[i]? = y.values.grid.cells[j]?

lemma Column.Clean.alike (clean : x.Clean h) : Column.Alike (.same h w) x x :=
  ⟨clean, clean, fun _ => rfl, by rintro i _ rfl; rfl⟩

namespace Column.Alike

variable {ρ : Pairing} {y : Column}

lemma echoes_values (alike : Column.Alike ρ x y) (numeric : x.isNumeric) :
    x.values.Echoes ρ x.values.magnitude y.values := by
  obtain ⟨type, cells⟩ := x
  obtain ⟨_, cells'⟩ := y
  cases alike.sort numeric
  cases type with
  | plain d =>
    have tall : cells.length = ρ.height := alike.clean.tall
    have tall' : cells'.length = ρ.height' := alike.clean'.tall
    have rows : EchoRows ρ (Block.magnitude ⟨d, .vector cells⟩) d d (.ofVector cells)
        (.ofVector cells') := by
      refine ⟨rfl, by simpa [Matrix.height, Matrix.ofVector] using tall,
        by simpa [Matrix.height, Matrix.ofVector] using tall', ?_⟩
      intro i j r r' together found found'
      have same : cells[i]? = cells'[j]? := alike.cells i j together
      simp only [Matrix.ofVector, getElem?_map, Option.map_eq_some_iff] at found found'
      obtain ⟨y, found, rfl⟩ := found
      obtain ⟨y', found', rfl⟩ := found'
      rw [← same, found, Option.some.injEq] at found'
      subst found'
      refine .cons ?_ .nil
      have own := Echo.refl (w := ρ.Mixed) (alike.clean.sort d rfl numeric y (mem_of_getElem? found))
      simpa [Block.magnitude, found] using own
    exact ⟨.refl numeric, _, _, rfl, rfl, rows⟩
  | category | date => cases numeric

/-- An indicator is the same number whether it is whole or a fraction. -/
lemma echo_indicator (mixed : full = true → w) (b : Bool) :
    Echo w 1 (Contrast.cellType full) .float
    (Block.convert (Contrast.cellType full) (.int (if b then 1 else 0)))
    (Block.convert .float (.int (if b then 1 else 0))) := by
  have small : (if b then 1 else 0 : Int).natAbs ≤ 1 := by cases b <;> decide
  cases full with
  | true => exact .whole (mixed rfl) small (intEqFloat_ofInt (small.trans (by norm_num)))
  | false => exact .float (.inl rfl)

/-- A categoric column and a new one, coded by the levels of the first. -/
lemma echoes_code (alike : Column.Alike ρ x y) {full : Bool} {levels : List Datum} {v : Block}
    {st : Component.State} (known : Levels.ofValue (.series x) = .ok levels)
    (coding : (Contrast.treatment .default).code full levels = .ok c)
    (coded : Levels.code c levels x.values = .ok v) (levelsOf : st.levels = some levels)
    (contrastOf : st.contrast = some c) (mixed : v.cellType = .int → ρ.Mixed) :
    ∃ v', (∀ e, Component.codeVariable e st (.series y) = .ok v') ∧ v.Echoes ρ v.magnitude v' := by
  obtain ⟨increasing, cells, vector, count, rfl⟩ := alike.clean.code_eq known coding coded
  obtain ⟨cells', vector', count'⟩ := column_values_vector y
  have proper' := alike.clean'.isLevel vector'
  have mixed : full = true → ρ.Mixed := fun whole => mixed (by rw [whole]; rfl)
  have types : CellType.Echo ρ.Mixed (Contrast.cellType full) .float := by
    cases full with
    | true => exact .whole (mixed rfl)
    | false => exact .float
  refine ⟨_,
    fun e => codeVariable_eq e (codes_of_code coding) increasing vector' proper' levelsOf contrastOf,
    .of_rows types ⟨rfl, ?_, ?_, fun i j r r' together taken taken' => ?_⟩⟩
  · simp [Matrix.height, count]
  · simpa [Matrix.height, count'] using alike.clean'.tall
  · have same := alike.cells i j together
    rw [vector, vector'] at same
    change cells[i]? = cells'[j]? at same
    simp only [getElem?_map, ← same, Option.map_eq_some_iff] at taken taken'
    obtain ⟨z, here, rfl⟩ := taken
    obtain ⟨z', here', rfl⟩ := taken'
    cases here.symm.trans here'
    rw [Levels.indicators, Levels.indicators, forall₂_map_left_iff,
      forall₂_map_right_iff, forall₂_same]
    exact fun l _ => echo_indicator mixed (l == z)

end Column.Alike

/-! ### Variables -/

/-- On a column that is like the one that it was fitted to a variable has the numbers that it was
fitted with, in whatever order levels are gone through. Only a coding by whole numbers changes its
sort, so only for it fractions must be allowed to stand for whole numbers. -/
lemma Settled.newData (settled : Settled x flag st) (found : f.column? name = some y)
    (alike : Column.Alike ρ x y)
    (mixed : st.kind = some .categoric ∧ st.value.map (·.cellType) = some .int → ρ.Mixed) :
    ∃ v v', st.value = some v ∧ v.Echoes ρ v.magnitude v' ∧
      ∀ e, Ends (Component.variableNewData e name (.frame f)) st v' st := by
  cases settled with
  | numeric kind numeric value =>
    have column : Component.columnOf (.frame f) name = .ok (.series y) := by
      simp [Component.columnOf, found]
    refine ⟨x.values, y.values, value, alike.echoes_values numeric, fun e => ?_⟩
    simp only [Component.variableNewData, column, ends_bind, ends_lift, ends_get]
    refine ⟨_, _, ⟨rfl, rfl⟩, _, _, ⟨rfl, rfl⟩, ?_⟩
    rw [kind]
    exact ends_lift.mpr ⟨rfl, rfl⟩
  | @categoric _ _ v kind known coding coded levelsOf contrastOf value =>
    obtain ⟨v', again, echoes⟩ := alike.echoes_code known coding coded levelsOf contrastOf
      fun whole => mixed ⟨kind, by rw [value, Option.map_some, whole]⟩
    exact ⟨v, v', value, echoes, fun e => Component.ends_variableNewData found (again e) kind⟩

end ModelFormula
