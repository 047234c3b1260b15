import ModelFormula.Proofs.Designs.InteractionColumns
import ModelFormula.Proofs.Fits.CategoricFit
import ModelFormula.Proofs.Fits.SettledModels

/-!
# Indicators

The full coding of a column has a one in every row at the level of its cell. So an interaction of
factors has one column for each choice of levels, and a group-specific term each column of its
expression once for every column of the factor.
-/
namespace ModelFormula

open List CellType

variable {α β ι : Type} {h : Nat}

namespace Block

/-- Ones and zeros for so many rows: whether they have each of the items. -/
def indicating (h : Nat) (items : List α) (has : Nat → α → Bool) : Block :=
  ⟨.int, .matrix ⟨items.length, (range h).map fun i =>
    items.map fun u => .int (if has i u then 1 else 0)⟩⟩

lemma indicating_map {items : List α} (g : α → β) (has : Nat → β → Bool) :
    indicating h (items.map g) has = indicating h items fun i u => has i (g u) := by
  simp [indicating, Function.comp_def]

variable {levels : ι → List Datum} {has : ι → Nat → Datum → Bool} {p : Block}

/-- A product indicates the pairs of which a row has both. -/
lemma interact_indicating {vs : List β} {has : Nat → α → Bool} {has' : Nat → β → Bool}
    (done : interact (indicating h us has) (indicating h vs has') = .ok p) :
    p = indicating h (us.product vs) fun i w => has i w.1 && has' i w.2 := by
  have wide := width_pos_of_interact rfl rfl done
  have multiplied := (numericProduct?_eq_some_iff (a := indicating h us has)
    (b := indicating h vs has') rfl rfl).mpr ⟨rfl, ⟨by simp [Matrix.height], wide⟩, rfl⟩
  rw [interact, multiplied] at done
  cases done
  have entry (a b : Bool) : mulCell .int (.int (if a then 1 else 0)) (.int (if b then 1 else 0)) =
      .int (if a && b then 1 else 0) := by
    cases a <;> cases b <;> rfl
  have same (n : Int) : convert .int (.int n) = .int n := rfl
  simp [indicating, Block.multiplied, Matrix.productWith, Matrix.productRow, Matrix.map, zipWith_map,
    zipWith_self, product, map_flatMap, flatMap_map, Function.comp_def,
    join, same, entry]

/-! ### Several factors -/

/-- Whether a row has all levels of a choice, one of each factor. -/
def hasAll (has : ι → Nat → Datum → Bool) (cs : List ι) (i : Nat) (ls : List Datum) : Bool :=
  (cs.zip ls).all fun p => has p.1 i p.2

lemma foldlM_indicating {cs : List ι} {own : Nat → α → Bool}
    (done : (cs.map fun c => indicating h (levels c) (has c)).foldlM interact
      (indicating h us own) = .ok p) :
    p = indicating h (us.product (choices (cs.map levels))) fun i w =>
      own i w.1 && hasAll has cs i w.2 := by
  induction cs generalizing α with
  | nil =>
    cases done
    have pairs : us.product (choices ([].map levels)) = us.map fun u => (u, []) := by
      simp [product, choices, map_eq_flatMap]
    rw [pairs, indicating_map]
    simp [hasAll]
  | cons c cs ih =>
    obtain ⟨q, first, rest⟩ := bind_eq_ok.mp done
    obtain rfl := interact_indicating first
    -- a level goes from the items in front to the choice behind them
    have pairs : us.product (choices ((c :: cs).map levels)) =
        ((us.product (levels c)).product (choices (cs.map levels))).map fun w =>
          (w.1.1, w.1.2 :: w.2) := by
      simp [product, choices, map_flatMap, flatMap_map, flatMap_assoc, Function.comp_def]
    rw [ih rest, pairs, indicating_map]
    simp [hasAll, Bool.and_assoc]

/-- The product of the codings of some factors indicates the choices of their levels. -/
lemma interactAll_indicating {cs : List ι}
    (done : interactAll (cs.map fun c => indicating h (levels c) (has c)) = .ok p) :
    p = indicating h (choices (cs.map levels)) (hasAll has cs) := by
  cases cs with
  | nil => cases done
  | cons c cs =>
    have pairs : choices ((c :: cs).map levels) =
        ((levels c).product (choices (cs.map levels))).map fun w => w.1 :: w.2 := by
      simp [product, choices, map_flatMap, Function.comp_def]
    rw [foldlM_indicating done, pairs, indicating_map]
    simp [hasAll]

/-! ### Groups -/

/-- The entry of a block in a row and a column. -/
def cell? (b : Block) (i j : Nat) : Option Datum :=
  b.matrix?.bind fun m => m.rows[i]?.bind (·[j]?)

/-- Every place of a regular block has an entry, which is of its sort. -/
lemma Regular.entry {b : Block} (regular : b.Regular) (shape : b.matrix? = some m)
    (inside : i < m.height) (inside' : j < m.width) :
    ∃ y, b.cell? i j = some y ∧ b.cellType.Holds y := by
  obtain ⟨n, shape', rows, cells⟩ := regular.rows
  cases shape.symm.trans shape'
  have bound : j < (m.rows[i]).length := by rwa [rows _ (getElem_mem inside)]
  refine ⟨m.rows[i][j], ?_, cells (m.column j) ?_ _ ?_⟩
  · simp [cell?, shape, getElem?_eq_getElem inside, bound]
  · exact mem_map.mpr ⟨j, mem_range.mpr inside', rfl⟩
  · exact mem_filterMap.mpr ⟨m.rows[i], getElem_mem inside, getElem?_eq_getElem bound⟩

/-- A product with one gives a number back, whatever it is. -/
lemma mulCell_one {d : CellType} (numeric : d.isNumeric) (holds : d.Holds y)
    (fits : ∀ n, y = .int n → wrap n = n) :
    let z := mulCell (int.join d) (convert (int.join d) (.int 1))
      (convert (int.join d) y)
    z = y ∨ z == y := by
  cases d with
  | text | object => cases numeric
  | bool =>
    obtain ⟨b, rfl⟩ := holds
    right
    cases b <;> decide +kernel
  | int =>
    obtain ⟨n, rfl⟩ := holds
    left
    show Datum.int (wrap (1 * n)) = .int n
    rw [one_mul, fits n rfl]
  | float =>
    obtain ⟨v, rfl⟩ := holds
    left
    show Datum.float (Float.ofInt 1 * v) = .float v
    rw [show Float.ofInt 1 = 1 by decide +kernel, Decimal.float_one_mul]

/-- A product with zero is zero if the number is finite. -/
lemma mulCell_zero {d : CellType} (numeric : d.isNumeric) (holds : d.Holds y)
    (finite : ∀ v, y = .float v → v.isFinite) :
    (mulCell (int.join d) (convert (int.join d) (.int 0)) (convert (int.join d) y) == .int 0) := by
  cases d with
  | text | object => cases numeric
  | bool =>
    obtain ⟨b, rfl⟩ := holds
    cases b <;> decide +kernel
  | int =>
    obtain ⟨n, rfl⟩ := holds
    show (Datum.int (wrap (0 * n)) == .int 0)
    rw [zero_mul]
    decide
  | float =>
    obtain ⟨v, rfl⟩ := holds
    show Literal.intEqFloat 0 (Float.ofInt 0 * v)
    rw [show Float.ofInt 0 = 0 by decide +kernel]
    exact Decimal.intEqFloat_zero_mul (finite v rfl)

/-- For every item of a factor the columns of a block follow each other, multiplied by its ones and
zeros. -/
lemma cell?_grouped {has : Nat → α → Bool} (shape : x.matrix? = some n) (rows : n.Rectangular)
    (numeric : x.cellType.isNumeric) (done : grouped (indicating h us has) x = .ok data) :
    data.shape = [h, us.length * n.width] ∧ n.height = h ∧
      ∀ k u, us[k]? = some u → ∀ i q y, x.cell? i q = some y →
        data.cell? i (k * n.width + q) = some (mulCell (int.join x.cellType)
          (convert (int.join x.cellType) (.int (if has i u then 1 else 0)))
          (convert (int.join x.cellType) y)) := by
  have factor : (indicating h us has).matrix? = some ⟨us.length, (range h).map fun i =>
      us.map fun u => .int (if has i u then 1 else 0)⟩ := rfl
  have joint : (int.join x.cellType).isNumeric := by
    revert numeric
    cases x.cellType <;> decide
  have sort : (indicating h us has).cellType = .int := rfl
  simp only [grouped, factor, sort, shape, Matrix.height, length_map, length_range] at done
  by_cases checked : (h == n.rows.length && decide (0 < h))
  swap
  · rw [if_neg checked] at done
    cases done
  rw [if_pos checked, if_pos joint] at done
  cases done
  have heights : n.rows.length = h := by
    rw [Bool.and_eq_true, beq_iff_eq] at checked
    exact checked.1.symm
  refine ⟨?_, heights, ?_⟩
  · simp [Block.shape, Grid.shape, Matrix.productWith, Matrix.height, Matrix.map, heights]
  · intro k u item i q y found
    simp only [cell?, shape, Option.bind_some, Option.bind_eq_some_iff] at found
    obtain ⟨row, inside, found⟩ := found
    obtain ⟨bound, rfl⟩ := List.getElem?_eq_some_iff.mp inside
    have wide := rows _ (getElem_mem bound)
    have placed := Matrix.getElem?_productRow (f := mulCell (int.join x.cellType))
      (r := (us.map fun u => Datum.int (if has i u then 1 else 0)).map
        (convert (int.join x.cellType)))
      (s := n.rows[i].map (convert (int.join x.cellType))) (i := k) (j := q)
      (by rw [getElem?_map, getElem?_map, item]; rfl)
      (by rw [getElem?_map, found]; rfl)
    rw [length_map, wide] at placed
    simpa [cell?, matrix?, Matrix.productWith, Matrix.map, getElem?_zipWith, bound,
      heights ▸ bound] using placed

end Block

/-! ### Codings -/

/-- A clean column that is coded in full indicates its levels. -/
lemma Column.Clean.code_full (clean : x.Clean h) (known : Levels.ofValue (.series x) = .ok levels)
    (coded : Levels.code (Contrast.treatmentFull levels) levels x.values = .ok v) :
    v = Block.indicating h levels fun i l => x.values.grid.cells[i]?.any (l == ·) := by
  have coding : (Contrast.treatment .default).code true levels = _ := rfl
  obtain ⟨-, cells, vector, tall, rfl⟩ := clean.code_eq known coding coded
  have rows : cells.map (Levels.indicators .int levels) = (range h).map fun i =>
      levels.map fun l => .int (if cells[i]?.any (l == ·) then 1 else 0) := by
    refine ext_getElem (by simp [tall]) fun i bound _ => ?_
    have inside : i < cells.length := by simpa using bound
    simp only [Levels.indicators, getElem_map, getElem_range,
      getElem?_eq_getElem inside, Option.any_some]
    rfl
  rw [vector]
  exact congrArg (fun rows => (⟨.int, .matrix ⟨levels.length, rows⟩⟩ : Block)) rows

/-!
### Columns of group-specific terms

For every choice of levels of its factors, in the order of the groups, a group-specific term has the
columns of its expression with zeros in the rows that do not belong to the group.
-/

open Block Store Component

/-- The levels of a column. -/
def Frame.levelsOf (f : Frame) (name : Literal) : List Datum :=
  ((f.column? name).bind fun x => (Levels.ofValue (.series x)).toOption).getD []

/-- Whether a column has a level in a row. -/
def Frame.hasLevel (f : Frame) (name : Literal) (i : Nat) (level : Datum) : Bool :=
  (f.column? name).any fun x => x.values.grid.cells[i]?.any (level == ·)

variable {f : Frame} {σ ρ τ : Store} {c : Component} {t : Term} {g : GroupTerm}

/-! ### Factors -/

/-- A factor that is coded in full. -/
structure Spread (f : Frame) (c : Component) (st : State) : Prop where
  kind : st.kind = some .categoric
  contrast : st.contrast = some (Contrast.treatmentFull (f.levelsOf c.name))
  value : st.value = some (indicating f.height (f.levelsOf c.name) (f.hasLevel c.name))

lemma spread_of_setData (isVariable : c.IsVariable) (ready : Ready f σ c)
    (clean : ∀ x, f.column? c.name = some x → x.Clean f.height)
    (ends : Ends (Fit.step c (setData c.atom (.bool true))) σ () τ) :
    Spread f c (τ.component c.slot) := by
  obtain ⟨n, r, atom⟩ := isVariable
  obtain ⟨st, step, rfl⟩ := ends_step.mp ends
  obtain ⟨x, found, column⟩ := ready.column
  have types := leaves_setData c.atom _ _ _ _ step
  have kind : st.kind = some .categoric := (congrArg Prod.fst types).trans ready.kind
  rw [putComponent_self _ _ _ ready.bound]
  rw [atom] at step
  cases settled_of_setData column (.inr ready.kind) ready.isResponse step with
  | numeric other => cases kind.symm.trans other
  | @categoric levels _ _ _ known coding coded _ contrastOf value =>
    cases coding
    have same : f.levelsOf c.name = levels := by simp [Frame.levelsOf, found, known, Except.toOption]
    have has : f.hasLevel c.name = fun i l => x.values.grid.cells[i]?.any (l == ·) := by
      funext i l
      simp [Frame.hasLevel, found]
    rw [(clean x found).code_full known coded, ← same, ← has] at value
    exact ⟨kind, by rw [contrastOf, same], value⟩

/-- The kind of the factor of a group-specific term. -/
def Term.groupingKind (t : Term) : Kind :=
  if 1 < t.components.length then .interaction else .categoric

lemma Term.spread_of_setData (plain : ∀ c ∈ t.components, c.IsVariable)
    (coherent : Coherent t.components) (ready : ∀ c ∈ t.components, Ready f σ c)
    (clean : ∀ c ∈ t.components, ∀ x, f.column? c.name = some x → x.Clean f.height)
    (bound : t.slot < σ.parts.size) (kind : (σ.part t.slot).kind = some t.groupingKind)
    (ends : Ends (t.setData (.uniform true)) σ () τ) :
    (∀ c ∈ t.components, Spread f c (τ.component c.slot)) ∧ t.components ≠ [] ∧
      (τ.part t.slot).kind = some t.groupingKind ∧ (τ.part t.slot).data =
        some (indicating f.height (choices (t.components.map fun c => f.levelsOf c.name))
          (hasAll (fun c => f.hasLevel c.name) t.components)) := by
  obtain ⟨ρ, data, runs, changes, rfl, taken⟩ := setData_cases ends
  -- a step leaves all types as they are, and so the others ready
  obtain ⟨_, spread, _⟩ := forall_of_setData (P := Spread f) (fun _ => False) coherent
    (Subset.refl _) (fun c mem d r r' told kept step => by
      cases told
      exact ModelFormula.spread_of_setData (plain c mem) ((ready c mem).of_kept kept)
        (clean c mem) step) runs
  rw [putPart_self _ _ _ (by rw [changes.partsSize]; exact bound)]
  rcases taken with ⟨joint, blocks, b, mapped, multiplied, rfl⟩ | ⟨other, c, cs, shape, rfl⟩
  · have values : t.components.mapM (fun c => columnBlock (ρ.component c.slot)) =
        .ok (t.components.map fun c =>
          indicating f.height (f.levelsOf c.name) (f.hasLevel c.name)) := by
      apply mapM_eq_map
      intro c mem
      rw [columnBlock, (spread c mem).value]
    cases mapped.symm.trans values
    refine ⟨spread, ?_, kind, congrArg some (interactAll_indicating multiplied)⟩
    intro none
    simp [kind, groupingKind, none] at joint
  · have few : ¬ 1 < t.components.length := by
      intro several
      simp [kind, groupingKind, several] at other
    obtain rfl : cs = [] := by
      rw [shape, length_cons] at few
      exact length_eq_zero_iff.mp (by omega)
    refine ⟨spread, by simp [shape], kind, ?_⟩
    rw [shape]
    have alone := @interactAll_indicating Component f.height (fun c => f.levelsOf c.name)
      (fun c => f.hasLevel c.name) _ [c] rfl
    exact (spread c (by simp [shape])).value.trans (congrArg some alone)

/-! ### Labels -/

lemma choices_map {α β : Type} (h : α → β) (xss : List (List α)) :
    choices (xss.map (·.map h)) = (choices xss).map (·.map h) := by
  induction xss with
  | nil => rfl
  | cons xs xss ih => simp [choices, ih, map_flatMap, flatMap_map, Function.comp_def]

lemma choices_zip {ι α β : Type} (xs : ι → List α) (h : ι → α → β) (cs : List ι) :
    choices (cs.map fun c => (xs c).map (h c)) =
      (choices (cs.map xs)).map fun ls => (cs.zip ls).map fun p => h p.1 p.2 := by
  induction cs with
  | nil => rfl
  | cons c cs ih => simp [choices, ih, map_flatMap, flatMap_map, Function.comp_def]

/-- The levels of a group, each with the name of its factor. -/
def Term.groupLabel (t : Term) (ls : List Datum) : String :=
  ":".intercalate ((t.components.zip ls).map fun p => (indexed p.1.name p.2.plain).plain)

lemma Term.labels_of_spread (spread : ∀ c ∈ t.components, Spread f c (σ.component c.slot))
    (kind : (σ.part t.slot).kind = some t.groupingKind) (some' : t.components ≠ []) :
    t.labels σ = .ok (some ((choices (t.components.map fun c => f.levelsOf c.name)).map fun ls =>
      .text (t.groupLabel ls))) := by
  have each : ∀ c ∈ t.components, c.labels (σ.component c.slot) =
      .ok (some ((f.levelsOf c.name).map fun l => indexed c.name l.plain)) := by
    intro c mem
    simp [Component.labels, (spread c mem).kind, (spread c mem).contrast,
      Contrast.treatmentFull, Contrast.labelsOf, Function.comp_def]
  by_cases several : 1 < t.components.length
  · have kind : (σ.part t.slot).kind = some .interaction := by rw [kind, groupingKind, if_pos several]
    rw [labels_of_interaction kind each (by simp [indexed]), choices_zip, map_map]
    simp [Function.comp_def, groupLabel]
  · obtain ⟨c, single⟩ : ∃ c, t.components = [c] := length_eq_one_iff.mp (by
      have := length_pos_of_ne_nil some'
      omega)
    have first : t.labels σ = c.labels (σ.component c.slot) := by
      rw [Term.labels, kind, groupingKind, if_neg several, single]
    rw [first, each c (by simp [single]), single]
    simp [choices, groupLabel, single, indexed, Literal.plain, ← map_eq_flatMap]

/-! ### Group-specific terms -/

namespace GroupTerm

/-- A group-specific term in the store whose factor is a term of variables that has nothing in common
with the expression. -/
structure Proper (g : GroupTerm) (t : Term) (σ : Store) : Prop where
  apart : Apart g.effects [g] g.held {} σ
  factor : g.factor = .term t
  plain : ∀ c ∈ t.components, c.IsVariable
  other : g.expr ≠ g.factor
  disjoint : ∀ c ∈ g.expr.held, c ∉ t.components

lemma Proper.coherent (proper : g.Proper t σ) : Coherent t.components := by
  have held : t.components ⊆ g.held := by simp [GroupTerm.held, proper.factor, Effect.held]
  exact fun c left d right => proper.apart.coherent c (held left) d (held right)

lemma Proper.not_slotOf (proper : g.Proper t σ) (mem : c ∈ t.components) :
    ¬ SlotOf g.expr.held c.slot := by
  rintro ⟨d, held, same⟩
  have eq := proper.apart.coherent d (mem_append_left _ held) c
    (mem_append_right _ (by rw [proper.factor]; exact mem)) same
  exact proper.disjoint d held (eq ▸ mem)

lemma Proper.not_own (proper : g.Proper t σ) : t.slot ∉ g.expr.slot? := fun own =>
  proper.other (proper.apart.distinct _ (by simp [effects]) _ (by simp [effects]) t.slot own
    (by rw [proper.factor]; rfl))

variable {scope : Scope Value}

lemma ready_of_makeCategoric (isVariable : c.IsVariable) (plain : Plain σ c) (ends : Ends (do
      Fit.step c (Component.setKind c.atom (.frame f) scope "GroupSpecificTerm")
      Fit.step c (modify ({ · with kind := some .categoric }))) σ () τ) : Ready f τ c := by
  obtain ⟨_, ρ, first, second⟩ := ends_bind.mp ends
  obtain ⟨x, found, column, _⟩ := knows_of_setKind isVariable plain.bound first
  have plain := plain.of_sameRoles ((leaves_setKind _ _ _ _).step c σ () ρ first)
  obtain ⟨st, step, rfl⟩ := ends_step.mp second
  obtain rfl := ends_modify.mp step
  have state := ρ.putComponent_self c.slot { ρ.component c.slot with kind := some .categoric } plain.bound
  refine ⟨⟨by simpa [putComponent] using plain.bound, ?_⟩, ?_, x, found, ?_⟩
  all_goals rw [state]
  · exact plain.isResponse
  · exact column

/-- Whatever the factors are, they are made categoric, and typing the expression leaves them so. -/
lemma ready_of_setKind (proper : g.Proper t σ) (ends : Ends (g.setKind (.frame f) scope) σ () τ) :
    (∀ c ∈ t.components, Ready f τ c) ∧ (τ.part t.slot).kind = some t.groupingKind := by
  obtain ⟨t', ρ₁, ρ₂, shape, runs, changes, part, typed⟩ := setKind_cases ends
  obtain rfl : t = t' := by simpa [proper.factor] using shape
  obtain ⟨_, ready⟩ := runs.establishes (I := SameRoles σ) (Q := fun c σ => Ready f σ c)
    (fun c mem r r' step roles => by
      have plain := (proper.apart.components c (mem_append_right _ (by
        rw [shape]; exact mem))).2.of_sameRoles roles
      have own := ready_of_makeCategoric (proper.plain c mem) plain step
      have changes := ((confined_step (P := fun _ => False) c _).bind fun _ => confined_step c _)
        r () r' step
      obtain ⟨_, _, first, second⟩ := ends_bind.mp step
      refine ⟨(roles.trans ((leaves_setKind _ _ _ _).step c _ _ _ first)).trans
        ((leaves_modify fun _ => by rfl).step c _ _ _ second), own, fun d among before => ?_⟩
      by_cases same : d.slot = c.slot
      · rw [proper.coherent d among c mem same]
        exact own
      · exact before.of_eq changes.componentsSize (changes.component _ same)) (Kept.refl σ)
  have later := g.expr.confined_setKind (.frame f) scope ρ₂ () τ typed
  obtain rfl := ends_setPart.mp part
  constructor
  · intro c mem
    exact (ready c mem).of_eq later.componentsSize (later.component _ (proper.not_slotOf mem))
  · have bound := (proper.apart.parts g.factor (by simp [effects]) t.slot (by rw [shape]; rfl)).2
    rw [later.part _ proper.not_own, putPart_self _ _ _ (by rw [changes.partsSize]; exact bound)]
    rfl

/-- The labels of the columns of the expression; an intercept is labelled by one. -/
def innerLabels (g : GroupTerm) (σ : Store) : Except Fault (Option (List Literal)) :=
  if (σ.part g.slot).kind = some .intercept then .ok (some [.text "1"]) else g.expr.labels σ

lemma groupsOf_of_spread (spread : ∀ c ∈ t.components, Spread f c (σ.component c.slot)) :
    groupsOf t σ = .ok ((choices (t.components.map fun c => f.levelsOf c.name)).map fun ls =>
      ":".intercalate (ls.map Datum.plain)) := by
  refine bind_eq_ok.mpr ⟨(t.components.map fun c => f.levelsOf c.name).map (·.map Datum.plain), ?_, ?_⟩
  · rw [map_map]
    apply mapM_eq_map
    intro c mem
    simp only [(spread c mem).contrast]
    rfl
  · rw [choices_map, map_map]
    rfl

/-- The factor indicates the choices of levels when its data meet those of the expression. -/
lemma grouped_of_setData (proper : g.Proper t ρ)
    (clean : ∀ c ∈ t.components, ∀ x, f.column? c.name = some x → x.Clean f.height)
    (typed : Ends (g.setKind (.frame f) scope) ρ () σ) (taken : Ends (g.setData encoding) σ () τ) :
    let groups := choices (t.components.map fun c => f.levelsOf c.name)
    ∃ x data, g.expr.data? τ = .ok (some x) ∧ (τ.part g.slot).data = some data ∧
      grouped (indicating f.height groups
        (hasAll (fun c => f.hasLevel c.name) t.components)) x = .ok data ∧
      (τ.part g.slot).groups = some (groups.map fun ls => ":".intercalate (ls.map Datum.plain)) ∧
      g.factor.labels τ = .ok (some (groups.map fun ls => .text (t.groupLabel ls))) := by
  intro groups
  obtain ⟨ready, kind⟩ := ready_of_setKind proper typed
  obtain ⟨t', ρ₁, ρ₂, ρ₃, names, x, j, data, shape, first, second, found, third, left, right, grouped,
    last⟩ := setData_cases taken
  obtain rfl : t = t' := by simpa [proper.factor] using shape
  have apart := proper.apart.refit (g.keeping_setKind _ _ ρ () σ typed)
  have kept : Kept View.types (fun _ => False) σ ρ₁ := g.expr.keeping_setData encoding σ () ρ₁ first
  have size := (g.factor.confined_setData _ ρ₁ () ρ₂ second).partsSize
  rw [shape] at second
  obtain ⟨spread, some', kind, isData⟩ := t.spread_of_setData proper.plain proper.coherent
    (fun c mem => (ready c mem).of_kept kept) clean
    (by rw [kept.partsSize]; exact (apart.parts g.factor (by simp [effects]) _ (by rw [shape]; rfl)).2)
    ((congrArg (·.1) (kept.part t.slot id)).trans kind) second
  cases found.symm.trans (groupsOf_of_spread spread)
  -- the part of the term itself is none of the expression and none of the factor
  obtain ⟨⟨_, bound⟩, outside⟩ := apart.grouped g (by simp)
  have bound : g.slot < ρ₂.parts.size := by rw [size, kept.partsSize]; exact bound
  have apart' : t.slot ≠ g.slot := fun same =>
    outside g.factor (by simp [effects]) (by rw [shape, ← same]; rfl)
  have later := confined_setPart (C := fun _ => False) g.slot _ ρ₃ () τ last
  have isExpr : g.expr.data? τ = g.expr.data? ρ₃ := Effect.data?_of_eq fun s slot =>
    later.part s fun own => outside g.expr (by simp [effects]) (own ▸ slot)
  obtain rfl := ends_setPart.mp third
  obtain rfl := ends_setPart.mp last
  rw [shape, Effect.data?, putPart_of_ne _ _ _ _ apart', isData] at right
  cases right
  refine ⟨x, data, isExpr.trans left, ?_, grouped, ?_, ?_⟩
  · rw [putPart_self _ _ _ (by simpa [putPart] using bound)]
  · rw [putPart_self _ _ _ (by simpa [putPart] using bound), putPart_self _ _ _ bound]
  · rw [shape]
    refine t.labels_of_spread spread ?_ some'
    rw [putPart_of_ne _ _ _ _ apart', putPart_of_ne _ _ _ _ apart']
    exact kind

/-- After a group-specific term has taken its data it has the columns of its expression for every
choice of levels of its factors, in the order of its groups. In the rows that have these levels the
entries are those of the expression, and in the others they are zero unless they are infinite or no
numbers in the expression. The label of a column joins the label of the expression with the group. -/
theorem entries_of_setData {scope : Scope Value} {encoding : Encoding} (proper : g.Proper t ρ)
    (clean : ∀ c ∈ t.components, ∀ x, f.column? c.name = some x → x.Clean f.height)
    (typed : Ends (g.setKind (.frame f) scope) ρ () σ) (taken : Ends (g.setData encoding) σ () τ)
    {x : Block} (isExpr : g.expr.data? τ = .ok (some x)) (regular : x.Regular)
    (numeric : x.cellType.isNumeric = true) {inner : List Literal}
    (labelled : g.innerLabels τ = .ok (some inner))
    (fitting : inner.length = DesignMatrix.columnCount x) :
    let groups := choices (t.components.map fun c => f.levelsOf c.name)
    ∃ data names, (τ.part g.slot).data = some data ∧
      data.shape = [f.height, groups.length * inner.length] ∧
      (τ.part g.slot).groups = some (groups.map fun ls => ":".intercalate (ls.map Datum.plain)) ∧
      g.labels τ = .ok names ∧ names.length = groups.length * inner.length ∧
      ∀ k ls, groups[k]? = some ls → ∀ q l, inner[q]? = some l →
        names[k * inner.length + q]? = some (l.plain ++ "|" ++ t.groupLabel ls) ∧
        ∀ i < f.height, ∃ y z, x.cell? i q = some y ∧ data.cell? i (k * inner.length + q) = some z ∧
          (hasAll (fun c => f.hasLevel c.name) t.components i ls = true →
            (∀ n, y = .int n → wrap n = n) → z = y ∨ (z == y) = true) ∧
          (hasAll (fun c => f.hasLevel c.name) t.components i ls = false →
            (∀ v, y = .float v → v.isFinite = true) → (z == .int 0) = true) := by
  intro groups
  obtain ⟨x', data, isExpr', isData, grouped, isGroups, labels⟩ :=
    grouped_of_setData proper clean typed taken
  cases isExpr.symm.trans isExpr'
  obtain ⟨n, shape, rows, cells⟩ := regular.rows
  have width : inner.length = n.width := by rw [fitting, stacked_width (stacked_of_matrix? shape)]
  obtain ⟨size, tall, entries⟩ := cell?_grouped shape rows numeric grouped
  have names : g.labels τ = .ok (Matrix.productRow label
      (groups.map fun ls => .text (t.groupLabel ls)) inner) := by
    rw [innerLabels] at labelled
    rw [GroupTerm.labels]
    split at labelled
    · next intercept =>
      cases labelled
      simp only [intercept, if_true]
      exact bind_eq_ok.mpr ⟨_, rfl, bind_eq_ok.mpr ⟨_, labels, rfl⟩⟩
    · next other =>
      simp only [other, if_false]
      exact bind_eq_ok.mpr ⟨_, labelled, bind_eq_ok.mpr ⟨_, labels, rfl⟩⟩
  refine ⟨data, _, isData, by rw [size, width], isGroups, names, ?_, ?_⟩
  · simp [Matrix.productRow, Function.comp_def]
  · intro k ls item q l own
    constructor
    · have placed : (groups.map fun ls => Literal.text (t.groupLabel ls))[k]? =
          some (.text (t.groupLabel ls)) := by rw [List.getElem?_map, item, Option.map_some]
      exact Matrix.getElem?_productRow placed own
    · intro i inside
      obtain ⟨bound, _⟩ := List.getElem?_eq_some_iff.mp own
      obtain ⟨y, found, holds⟩ := regular.entry shape (tall ▸ inside) (width ▸ bound)
      refine ⟨y, _, found, by rw [width]; exact entries k ls item i q y found, ?_, ?_⟩
      · intro member fits
        rw [if_pos member]
        exact mulCell_one numeric holds fits
      · intro outside finite
        rw [if_neg (by simp [outside])]
        exact mulCell_zero numeric holds finite

/-- A number in two groups, in a store of its own. -/
def slopeWithin (factors : List Component) : GroupTerm :=
  ⟨2, .term ⟨0, [⟨0, .variable (.text "x") none⟩]⟩, .term ⟨1, factors⟩⟩

set_option maxRecDepth 100000 in
/-- A number within the groups of two factors: two rows, four columns. -/
theorem entries_of_setData_twoFactors :
    let factors : List Component := [⟨1, .variable (.text "g") none⟩, ⟨2, .variable (.text "h") none⟩]
    let f : Frame := ⟨2, [(.text "x", ⟨.plain .int, [.int 3, .int 5]⟩),
      (.text "g", ⟨.plain .object, [.text "a", .text "b"]⟩),
      (.text "h", ⟨.plain .object, [.text "u", .text "v"]⟩)]⟩
    ∃ ρ σ τ data, (slopeWithin factors).Proper ⟨1, factors⟩ ρ ∧
      Ends ((slopeWithin factors).setKind (.frame f) ⟨[]⟩) ρ () σ ∧
      Ends ((slopeWithin factors).setData (.uniform true)) σ () τ ∧
      (τ.part 2).data = some data ∧ data.shape = [2, 4] := by
  intro factors f
  let ρ : Store := { components := #[{}, {}, {}], parts := #[{}, {}, {}] }
  have apart : Apart (slopeWithin factors).effects [slopeWithin factors] (slopeWithin factors).held {} ρ :=
    { parts := by simp [slopeWithin, effects, Effect.slot?, ρ]
      distinct := by simp [slopeWithin, effects, Effect.slot?, DistinctSlots]
      grouped := by simp [slopeWithin, effects, Effect.slot?, ρ]
      groupedDistinct := by simp
      components := by
        simp only [slopeWithin, held, Effect.held, factors, cons_append, nil_append,
          forall_mem_cons]
        exact ⟨⟨by decide, by decide, rfl⟩, ⟨by decide, by decide, rfl⟩, ⟨by decide, by decide, rfl⟩,
          by simp⟩
      coherent := by simp [slopeWithin, held, Effect.held, factors, Coherent] }
  have proper : (slopeWithin factors).Proper ⟨1, factors⟩ ρ :=
    ⟨apart, rfl, by simp [factors, Component.IsVariable], by simp [slopeWithin],
      by simp [slopeWithin, Effect.held, factors]⟩
  have clean : ∀ c ∈ factors, ∀ x, f.column? c.name = some x → x.Clean f.height := by
    intro c member x found
    rcases mem_pair.mp member with rfl | rfl
    · cases found
      exact clean_texts ["a", "b"]
    · cases found
      exact clean_texts ["u", "v"]
  obtain ⟨_, τ, ended, view⟩ := @exists_ends_store Store Unit Bool
    (do (slopeWithin factors).setKind (.frame f) ⟨[]⟩
        (slopeWithin factors).setData (.uniform true)) ρ
    (fun _ τ => ((slopeWithin factors).expr.data? τ).toOption.any (·.any fun x =>
        decide (x.Regular ∧ x.cellType.isNumeric ∧ DesignMatrix.columnCount x = 1)) &&
      ((slopeWithin factors).innerLabels τ).toOption.any (·.any (·.length == 1)))
    true (by decide +kernel)
  obtain ⟨_, σ, typed, taken⟩ := ends_bind.mp ended
  simp only [Bool.and_eq_true, decide_eq_true_iff, Option.any_eq_true, beq_iff_eq,
    toOption_eq_some] at view
  obtain ⟨⟨x?, isExpr, x, rfl, regular, numeric, one⟩, ls?, labelled, ls, rfl, one'⟩ := view
  obtain ⟨data, _, isData, shape, _⟩ := entries_of_setData proper clean typed taken isExpr
    regular numeric labelled (one'.trans one.symm)
  refine ⟨ρ, σ, τ, data, proper, typed, taken, isData, ?_⟩
  rw [shape, one']
  decide

set_option maxRecDepth 100000 in
/-- An infinite number is multiplied with the zeros of the groups to which its row does not belong, so
it leaves entries there that are no numbers. -/
theorem entries_of_infinite :
    let factors : List Component := [⟨1, .variable (.text "g") none⟩]
    let f : Frame := ⟨2, [(.text "x", ⟨.plain .float, [.float (1 / 0), .float 1]⟩),
      (.text "g", ⟨.plain .object, [.text "a", .text "b"]⟩)]⟩
    let fit : Fit Unit := do
      (slopeWithin factors).setKind (.frame f) ⟨[]⟩
      (slopeWithin factors).setData (.uniform true)
    ∃ τ data v, Ends fit { components := #[{}, {}], parts := #[{}, {}, {}] } () τ ∧
      (τ.part 2).data = some data ∧ (τ.part 2).groups = some ["a", "b"] ∧
      f.hasLevel (.text "g") 0 (.text "b") = false ∧
      data.cell? 0 1 = some (.float v) ∧ v.isNaN = true := by
  intro factors f fit
  obtain ⟨_, τ, ended, view⟩ := @exists_ends_store Store Unit Bool fit
    { components := #[{}, {}], parts := #[{}, {}, {}] }
    (fun _ τ => decide ((τ.part 2).groups = some ["a", "b"]) && (τ.part 2).data.any fun data =>
      (data.cell? 0 1).any fun y => y.isMissing && y.float?.isSome)
    true (by decide +kernel)
  simp only [Bool.and_eq_true, decide_eq_true_iff, Option.any_eq_true] at view
  obtain ⟨groups, data, isData, y, found, nan, number⟩ := view
  cases y with
  | float v => exact ⟨τ, data, v, ended, isData, groups, by decide, found, nan⟩
  | null => cases number
  | bool | int | complex | text | list | record => cases nan

end GroupTerm

end ModelFormula
