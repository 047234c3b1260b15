import ModelFormula.Proofs.Designs.ColumnProducts

/-!
# Columns, labels and levels of interactions

The columns of an interaction are numbered in a mixed base, with one digit for each component. Data,
labels and levels follow this order.
-/
namespace ModelFormula

open List

/-! ### Choices of labelled columns -/

lemma mem_of_mem_choices {α : Type} {xss : List (List α)} {cs : List α} (mem : cs ∈ choices xss) :
    ∀ x ∈ cs, ∃ xs ∈ xss, x ∈ xs := by
  induction xss generalizing cs with
  | nil =>
    obtain rfl : cs = [] := by simpa [choices] using mem
    simp
  | cons xs xss ih =>
    obtain ⟨y, own, mem⟩ := mem_flatMap.mp mem
    obtain ⟨ds, inside, rfl⟩ := mem_map.mp mem
    intro x among
    rcases mem_cons.mp among with rfl | later
    · exact ⟨xs, mem_cons_self, own⟩
    · obtain ⟨zs, there, own⟩ := ih inside x later
      exact ⟨zs, mem_cons_of_mem _ there, own⟩

lemma picks_eq_map {ι α : Type} {g : ι → List α} {f : ι → Nat → α} {cs : List ι}
    (each : ∀ c ∈ cs, ∀ j < (g c).length, (g c)[j]? = some (f c j))
    (bound : k < (cs.map fun c => (g c).length).prod) :
    picks (cs.map g) (digits (cs.map fun c => (g c).length) k) =
      some ((cs.zip (digits (cs.map fun c => (g c).length) k)).map fun p => f p.1 p.2) := by
  induction cs generalizing k with
  | nil => rfl
  | cons c cs ih =>
    obtain ⟨first, others⟩ := forall_mem_cons.mp each
    rw [map_cons, prod_cons] at bound
    have pos : 0 < (cs.map fun c => (g c).length).prod := by
      apply Nat.pos_of_ne_zero
      intro zero
      simp [zero] at bound
    rw [map_cons, map_cons, digits, picks_cons, ih others (Nat.mod_lt _ pos),
      first _ (Nat.div_lt_of_lt_mul (by rwa [Nat.mul_comm]))]
    rfl

lemma getElem?_of_forall₂ {α β : Type} {R : α → β → Prop} {xs : List α} {ys : List β}
    (all : List.Forall₂ R xs ys) {k : Nat} {x : α} (found : xs[k]? = some x) :
    ∃ y, ys[k]? = some y ∧ R x y := by
  induction all generalizing k with
  | nil => simp at found
  | cons first _ ih =>
    cases k with
    | zero =>
      cases found
      exact ⟨_, rfl, first⟩
    | succ k => exact ih (by simpa using found)

/-! ### Components -/

namespace Component

/-- The columns and the labels of a component that has a text for a name. -/
structure Shows (σ : Store) (c : Component) (columns : List Block) (labels : List Literal) : Prop where
  named : ∃ s, c.name = .text s
  value : ∃ b, (σ.component c.slot).value = some b ∧ b.Regular ∧ b.columns = .ok columns
  labelled : c.labels (σ.component c.slot) = .ok (some labels)
  same : labels.length = columns.length

/-- Whether a component shows so many columns. -/
def showsSome (σ : Store) (n : Nat) (c : Component) : Bool :=
  ((σ.component c.slot).value.any fun b =>
      decide b.Regular && b.columns.toOption.any (·.length == n)) &&
    (c.labels (σ.component c.slot)).toOption.any (·.any (·.length == n))

variable {c : Component}

lemma shows_of_showsSome (named : ∃ s, c.name = .text s) (some' : c.showsSome σ n) :
    ∃ columns labels, c.Shows σ columns labels ∧ columns.length = n := by
  simp only [showsSome, Bool.and_eq_true, Option.any_eq_true, decide_eq_true_iff, beq_iff_eq,
    toOption_eq_some] at some'
  obtain ⟨⟨b, value, regular, columns, isColumns, long⟩, ls?, found, labels, isLabels, long'⟩ := some'
  refine ⟨columns, labels, ⟨named, ⟨b, value, regular, isColumns⟩, ?_, by rw [long, long']⟩, long⟩
  rwa [← isLabels]

/-- The level that a component gives to its column with a number. A single column of numbers has
none. -/
def levelAt (st : State) (columns : List Block) (j : Nat) : Option String :=
  match st.contrast with
  | some m => m.labels[j]?
  | none => if 1 < columns.length then some (toString j) else none

/-- What has labels is numeric, an offset or categoric. -/
lemma labels_cases (labelled : c.labels st = .ok (some ls)) :
    (st.kind ≠ some .categoric ∧ ∃ b, st.value = some b ∧ ls = numericLabels c.name b) ∨
      st.kind = some .categoric ∧ ∃ m, st.contrast = some m ∧ ls = m.labels.map (indexed c.name) := by
  by_cases categoric : st.kind = some .categoric
  · right
    refine ⟨categoric, ?_⟩
    cases contrast : st.contrast with
    | none => simp [labels, categoric, contrast] at labelled
    | some m =>
      simp only [labels, categoric, contrast, Except.ok.injEq, Option.some.injEq] at labelled
      exact ⟨m, rfl, labelled.symm⟩
  · left
    refine ⟨categoric, ?_⟩
    cases value : st.value with
    | none =>
      simp only [labels, value] at labelled
      split at labelled
      · cases labelled
      · cases labelled
      next kind => exact absurd kind categoric
      · cases labelled
    | some b =>
      simp only [labels, value] at labelled
      refine ⟨b, rfl, ?_⟩
      split at labelled
      · cases labelled
        rfl
      · cases labelled
        rfl
      next kind => exact absurd kind categoric
      · cases labelled

lemma texts_of_labels (named : ∃ s, c.name = .text s) (labelled : c.labels st = .ok (some ls)) :
    ∀ l ∈ ls, ∃ s, l = .text s := by
  rcases labels_cases labelled with ⟨_, b, _, rfl⟩ | ⟨_, m, _, rfl⟩
  · unfold numericLabels
    split
    · split
      · rw [forall_mem_map]
        exact fun i _ => ⟨_, rfl⟩
      · simpa using named
    · simpa using named
  · rw [forall_mem_map]
    exact fun i _ => ⟨_, rfl⟩

variable {σ : Store} {columns : List Block} {labels : List Literal}

/-- What a component adds to the levels of an interaction: one level for each column, or nothing if
it has a single column of numbers. -/
structure Adds (st : State) (columns : List Block) (ls? : Option (List String)) : Prop where
  found : Term.componentLevels st = .ok ls?
  long : ((ls?.map (·.map some)).getD [none]).length = columns.length
  entry : ∀ j < columns.length,
    ((ls?.map (·.map some)).getD [none])[j]? = some (levelAt st columns j)
  given : st.kind = some .categoric ∨ 1 < columns.length → ls?.isSome = true

/-- A component has its levels unless it has kept a contrast. -/
lemma Shows.adds (shows' : c.Shows σ columns labels)
    (clean : (σ.component c.slot).kind ≠ some .categoric → (σ.component c.slot).contrast = none) :
    ∃ ls?, Adds (σ.component c.slot) columns ls? := by
  obtain ⟨b, value, regular, isColumns⟩ := shows'.value
  rcases labels_cases shows'.labelled with ⟨other, b', value', rfl⟩ | ⟨kind, m, contrast, rfl⟩
  · obtain rfl : b = b' := Option.some.inj (value.symm.trans value')
    have contrast := clean other
    have same := shows'.same
    obtain ⟨rows, shape, _⟩ := regular.rows
    obtain ⟨d, grid⟩ := b
    -- a single column of numbers has no level, and several columns are numbered
    have single : columns.length = 1 → Term.componentLevels (σ.component c.slot) = .ok none →
        Adds (σ.component c.slot) columns none := by
      intro one found
      refine ⟨found, by simp [one], ?_, ?_⟩
      · intro j inside
        obtain rfl : j = 0 := by omega
        simp [levelAt, contrast, one]
      · rintro (kind | several)
        · exact absurd kind other
        · omega
    cases grid with
    | vector xs =>
      cases isColumns
      exact ⟨none, single rfl (by simp [Term.componentLevels, contrast, value])⟩
    | matrix m =>
      have width : columns.length = m.width := by
        cases isColumns
        simp
      by_cases several : 1 < m.width
      · refine ⟨some ((List.range m.width).map toString), ?_, by simp [width], ?_, by simp⟩
        · simp [Term.componentLevels, contrast, value, several]
        · intro j inside
          rw [width] at inside
          simp [levelAt, contrast, width, several, inside]
      · refine ⟨none, single ?_ ?_⟩
        · simpa [numericLabels, several, eq_comm] using same
        · simp [Term.componentLevels, contrast, value, several]
    | deep => cases shape
  · have long : m.labels.length = columns.length := by simpa using shows'.same
    refine ⟨some m.labels, by simp [Term.componentLevels, contrast], by simpa using long, ?_, by simp⟩
    intro j inside
    rw [levelAt, contrast]
    simp [getElem?_eq_getElem (long ▸ inside)]

end Component

/-! ### Terms -/

namespace Term

variable {t : Term} {encoding : Encoding} {σ τ : Store} {labels : Component → List Literal}

/-- Taking data leaves an interaction with the product of the numbers of its components. -/
lemma interaction_of_setData (ended : Ends (t.setData encoding) σ () τ)
    (kind : (σ.part t.slot).kind = some .interaction) :
    (τ.part t.slot).kind = some .interaction ∧ ∃ blocks data,
      t.components.mapM (fun c => columnBlock (τ.component c.slot)) = .ok blocks ∧
        Block.interactAll blocks = .ok data ∧ (τ.part t.slot).data = some data := by
  have bound : t.slot < σ.parts.size := by
    by_contra outside
    simp [Store.part, Array.getElem?_eq_none (Nat.le_of_not_lt outside)] at kind
  obtain ⟨ρ, _, _, changes, rfl, ⟨_, blocks, data, mapped, multiplied, rfl⟩ | ⟨other, _⟩⟩ :=
    setData_cases ended
  · rw [Store.putPart_self _ _ _ (by rw [changes.partsSize]; exact bound)]
    exact ⟨kind, blocks, data, mapped, multiplied, rfl⟩
  · exact absurd kind other

lemma interactionLabels_eq (texts : ∀ ls ∈ lss, ∀ l ∈ ls, ∃ s, l = .text s) :
    interactionLabels (lss.map some) =
      .ok ((choices lss).map fun ls => ":".intercalate (ls.map Literal.plain)) := by
  rw [interactionLabels]
  apply bind_eq_ok.mpr
  refine ⟨lss, ?_, ?_⟩
  · rw [mapM_ok_iff, forall₂_map_left_iff, forall₂_same]
    exact fun ls _ => rfl
  · apply mapM_eq_map
    intro ls mem
    apply bind_eq_ok.mpr
    refine ⟨ls.map Literal.plain, ?_, rfl⟩
    apply mapM_eq_map
    intro l own
    obtain ⟨xs, inside, among⟩ := mem_of_mem_choices mem l own
    obtain ⟨s, rfl⟩ := texts xs inside l among
    rfl

/-- The labels of an interaction: one of each component, in all combinations. -/
lemma labels_of_interaction (kind : (τ.part t.slot).kind = some .interaction)
    (each : ∀ c ∈ t.components, c.labels (τ.component c.slot) = .ok (some (labels c)))
    (texts : ∀ c ∈ t.components, ∀ l ∈ labels c, ∃ s, l = .text s) :
    t.labels τ = .ok (some ((choices (t.components.map labels)).map fun ls =>
      .text (":".intercalate (ls.map Literal.plain)))) := by
  have all : t.components.mapM (fun c => c.labels (τ.component c.slot)) =
      .ok ((t.components.map labels).map some) := by
    rw [map_map]
    exact mapM_eq_map each
  have joined := interactionLabels_eq (forall_mem_map.mpr texts)
  rw [Term.labels, kind]
  refine bind_eq_ok.mpr ⟨_, all, bind_eq_ok.mpr ⟨_, joined, ?_⟩⟩
  rw [map_map]
  rfl

lemma columns_of_shows (shown : ∀ c ∈ t.components, c.Shows τ (columns c) (labels c))
    (mapped : t.components.mapM (fun c => columnBlock (τ.component c.slot)) = .ok blocks)
    (multiplied : Block.interactAll blocks = .ok data) :
    ∃ all, data.columns = .ok all ∧
      List.Forall₂ (fun cs x => Block.timesAll cs = .ok x) (choices (t.components.map columns)) all := by
  apply Block.columns_of_interactAll _ multiplied
  rw [forall₂_map_right_iff]
  have found := (mapM_ok_iff _ _ _).mp mapped
  clear mapped multiplied
  generalize t.components = cs at found shown ⊢
  induction found with
  | nil => exact .nil
  | @cons c b cs blocks first _ ih =>
    obtain ⟨here, later⟩ := forall_mem_cons.mp shown
    obtain ⟨b', value, regular, isColumns⟩ := here.value
    rw [columnBlock, value] at first
    cases first
    exact .cons ⟨regular, isColumns⟩ (ih later)

section Shown

variable {columns : Component → List Block} (kind : (τ.part t.slot).kind = some .interaction)
  (shown : ∀ c ∈ t.components, c.Shows τ (columns c) (labels c))

include kind shown

lemma labels_of_shows : t.labels τ = .ok (some ((choices (t.components.map labels)).map fun ls =>
      .text (":".intercalate (ls.map Literal.plain)))) :=
  labels_of_interaction kind (fun c mem => (shown c mem).labelled) fun c mem =>
    Component.texts_of_labels (shown c mem).named (shown c mem).labelled

lemma levels_of_shows (clean : ∀ c ∈ t.components, (τ.component c.slot).kind ≠ some .categoric →
      (τ.component c.slot).contrast = none)
    (some' : ∃ c ∈ t.components, (τ.component c.slot).kind = some .categoric ∨
      1 < (columns c).length) :
    ∃ levels, t.levels τ = .ok (some levels) ∧
      levels.length = (t.components.map fun c => (columns c).length).prod ∧
      ∀ k < (t.components.map fun c => (columns c).length).prod,
        levels[k]? = some (", ".intercalate ((t.components.zip
          (digits (t.components.map fun c => (columns c).length) k)).filterMap fun p =>
            Component.levelAt (τ.component p.1.slot) (columns p.1) p.2)) := by
  choose! ls? adds using fun c mem => (shown c mem).adds (clean c mem)
  have each : t.components.mapM (fun c => componentLevels (τ.component c.slot)) =
      .ok (t.components.map ls?) :=
    mapM_eq_map fun c mem => (adds c mem).found
  have nonempty : (t.components.map ls?).filterMap id ≠ [] := by
    obtain ⟨c, mem, several⟩ := some'
    obtain ⟨ls, given⟩ := Option.isSome_iff_exists.mp ((adds c mem).given several)
    apply ne_nil_of_mem
    exact mem_filterMap.mpr ⟨some ls, mem_map.mpr ⟨c, mem, given⟩, rfl⟩
  have levels : t.levels τ = .ok (some ((choices ((t.components.map ls?).filterMap id)).map
      fun parts => ", ".intercalate parts)) := by
    rw [Term.levels, kind]
    apply bind_eq_ok.mpr
    refine ⟨_, each, ?_⟩
    split
    next empty => exact absurd empty nonempty
    next => rfl
  -- in the choices among all components those that add nothing are left out
  let g : Component → List (Option String) := fun c => ((ls? c).map (·.map some)).getD [none]
  have widths : (t.components.map g).map List.length =
      t.components.map fun c => (columns c).length := by
    rw [map_map]
    exact map_congr_left fun c mem => (adds c mem).long
  have inAll : choices ((t.components.map ls?).filterMap id) =
      (choices (t.components.map g)).map (·.filterMap id) := by
    rw [choices_filterMap, map_map]
    rfl
  refine ⟨_, levels, ?_, ?_⟩
  · rw [length_map, inAll, length_map, length_choices, widths]
  · intro k bound
    have lengths : (t.components.map fun c => (g c).length) =
        t.components.map fun c => (columns c).length := by rwa [map_map] at widths
    have entries : ∀ c ∈ t.components, ∀ j < (g c).length,
        (g c)[j]? = some (Component.levelAt (τ.component c.slot) (columns c) j) := by
      intro c mem j inside
      exact (adds c mem).entry j ((adds c mem).long ▸ inside)
    have picked := picks_eq_map entries (lengths ▸ bound)
    rw [lengths] at picked
    rw [getElem?_map, inAll, getElem?_map, getElem?_choices (by rwa [widths]), widths,
      picked, Option.map_some, Option.map_some, filterMap_map]
    rfl

end Shown

/-- After an interaction has taken data its columns are numbered by one digit for each component. The
column with a number is the product of the columns of the components at its digits, row by row if these
are equally long columns of numbers, and its label joins their labels. If a component is categoric or
has several columns, and none but the categoric ones has a contrast, then the levels are numbered in
the same way. -/
theorem columns_of_setData (ended : Ends (t.setData encoding) σ () τ)
    (kind : (σ.part t.slot).kind = some .interaction) {columns : Component → List Block}
    {labels : Component → List Literal}
    (shown : ∀ c ∈ t.components, c.Shows τ (columns c) (labels c)) :
    let widths := t.components.map fun c => (columns c).length
    ∃ data all names, (τ.part t.slot).data = some data ∧ data.columns = .ok all ∧
      t.labels τ = .ok (some names) ∧ all.length = widths.prod ∧ names.length = widths.prod ∧
      (∀ k < widths.prod, ∃ cs ls x, picks (t.components.map columns) (digits widths k) = some cs ∧
        picks (t.components.map labels) (digits widths k) = some ls ∧
        all[k]? = some x ∧ Block.timesAll cs = .ok x ∧
        (∀ h, (∀ y ∈ cs, y.cellType.isNumeric = true ∧ y.grid.cells.length = h) → ∀ i < h,
          ∃ row, cs.mapM (·.entry i) = some row ∧ x.entry i = Block.timesRow row) ∧
        names[k]? = some (.text (":".intercalate (ls.map Literal.plain)))) ∧
      ((∀ c ∈ t.components, (τ.component c.slot).kind ≠ some .categoric →
          (τ.component c.slot).contrast = none) →
        (∃ c ∈ t.components, (τ.component c.slot).kind = some .categoric ∨ 1 < (columns c).length) →
        ∃ levels, t.levels τ = .ok (some levels) ∧ levels.length = widths.prod ∧
          ∀ k < widths.prod, levels[k]? = some (", ".intercalate
            ((t.components.zip (digits widths k)).filterMap fun p =>
              Component.levelAt (τ.component p.1.slot) (columns p.1) p.2))) := by
  intro widths
  obtain ⟨kind', blocks, data, mapped, multiplied, isData⟩ := interaction_of_setData ended kind
  obtain ⟨all, isColumns, products⟩ := columns_of_shows shown mapped multiplied
  have wide : (t.components.map columns).map List.length = widths := by
    rw [map_map]
    rfl
  have wide' : (t.components.map labels).map List.length = widths := by
    rw [map_map]
    exact map_congr_left fun c member => (shown c member).same
  refine ⟨data, all, _, isData, isColumns, labels_of_shows kind' shown, ?_, ?_, ?_,
    levels_of_shows kind' shown⟩
  · rw [← products.length_eq, length_choices, wide]
  · rw [length_map, length_choices, wide']
  · intro k bound
    obtain ⟨cs, picked⟩ := exists_picks (wide.symm ▸ bound)
    obtain ⟨ls, picked'⟩ := exists_picks (wide'.symm ▸ bound)
    have chosen := getElem?_choices (wide.symm ▸ bound)
    have chosen' := getElem?_choices (wide'.symm ▸ bound)
    rw [picked] at chosen
    rw [picked'] at chosen'
    rw [wide] at picked
    rw [wide'] at picked'
    obtain ⟨x, found, times⟩ := getElem?_of_forall₂ products chosen
    refine ⟨cs, ls, x, picked, picked', found, times, ?_, by rw [getElem?_map, chosen']; rfl⟩
    intro h numbers i inside
    apply Block.entry_timesAll _ times inside
    intro y member
    -- a picked column is one of a component
    obtain ⟨ys, among, own⟩ := mem_of_mem_choices (mem_of_getElem? chosen) y member
    obtain ⟨c, component, rfl⟩ := mem_map.mp among
    obtain ⟨b, _, regular, isColumns⟩ := (shown c component).value
    exact regular.isNumbers isColumns own (numbers y member).1 (numbers y member).2

/-- The interaction of two variables in a store of their own. -/
def pairOf (first second : String) : Term :=
  ⟨0, [⟨0, .variable (.text first) none⟩, ⟨1, .variable (.text second) none⟩]⟩

set_option maxRecDepth 100000 in
/-- Two columns of numbers with a factor of two levels. -/
theorem columns_of_setData_pair :
    let numbers : Block := ⟨.int, .matrix ⟨2, [[.int 3, .int 4], [.int 5, .int 6]]⟩⟩
    let σ : Store :=
      { components := #[{ kind := some .numeric, column := .array numbers },
          { kind := some .categoric, column := .series ⟨.plain .object, [.text "u", .text "v"]⟩ }]
        parts := #[{ kind := some .interaction }] }
    ∃ τ data all names levels, Ends ((pairOf "x" "g").setData (.uniform true)) σ () τ ∧
      (τ.part 0).data = some data ∧ data.columns = .ok all ∧ all.length = 4 ∧
      (pairOf "x" "g").labels τ = .ok (some names) ∧ names.length = 4 ∧
      (pairOf "x" "g").levels τ = .ok (some levels) ∧ levels.length = 4 := by
  intro numbers σ
  obtain ⟨_, τ, ended, view⟩ := @exists_ends_store Store Unit Bool
    ((pairOf "x" "g").setData (.uniform true)) σ
    (fun _ τ => (pairOf "x" "g").components.all (·.showsSome τ 2) &&
      (τ.component 0).contrast.isNone && (τ.component 1).kind == some .categoric)
    true (by decide +kernel)
  simp only [Bool.and_eq_true, all_eq_true, beq_iff_eq, Option.isNone_iff_eq_none] at view
  obtain ⟨⟨some', clean⟩, categoric⟩ := view
  have shown : ∀ c ∈ (pairOf "x" "g").components, ∃ columns labels,
      c.Shows τ columns labels ∧ columns.length = 2 := by
    intro c member
    refine Component.shows_of_showsSome ?_ (some' c member)
    simp only [pairOf, mem_cons, not_mem_nil, or_false] at member
    rcases member with rfl | rfl <;> exact ⟨_, rfl⟩
  choose! columns labels shown two using shown
  obtain ⟨data, all, names, isData, isColumns, isNames, count, count', -, numbered⟩ :=
    columns_of_setData ended rfl shown
  have others : ∀ c ∈ (pairOf "x" "g").components, (τ.component c.slot).kind ≠ some .categoric →
      (τ.component c.slot).contrast = none := by
    intro c member other
    simp only [pairOf, mem_cons, not_mem_nil, or_false] at member
    rcases member with rfl | rfl
    · exact clean
    · exact absurd categoric other
  obtain ⟨levels, isLevels, count'', -⟩ := numbered others
    ⟨⟨1, .variable (.text "g") none⟩, by simp [pairOf], .inl categoric⟩
  have widths : ((pairOf "x" "g").components.map fun c => (columns c).length).prod = 4 := by
    simp only [pairOf] at two ⊢
    simp [two]
  rw [widths] at count count' count''
  exact ⟨τ, data, all, names, levels, ended, isData, isColumns, count, isNames, count', isLevels,
    count''⟩

set_option maxRecDepth 100000 in
/-- A variable that was categoric and is numeric now has kept its contrast, and the levels of the
interaction still have its levels: there are four of them for two columns. -/
theorem levels_of_kept_contrast :
    let text (a b : String) : Column := ⟨.plain .object, [.text a, .text b]⟩
    let before : Frame := ⟨2, [(.text "a", text "p" "q"), (.text "b", text "u" "v")]⟩
    let after : Frame :=
      ⟨2, [(.text "a", ⟨.plain .int, [.int 3, .int 5]⟩), (.text "b", text "u" "v")]⟩
    let first : Fit Unit := do
      (pairOf "a" "b").setKind (.frame before) ⟨[]⟩
      (pairOf "a" "b").setData (.uniform true)
      (pairOf "a" "b").setKind (.frame after) ⟨[]⟩
    ∃ σ τ, Ends first { components := #[{}, {}], parts := #[{}] } () σ ∧
      Ends ((pairOf "a" "b").setData (.uniform true)) σ () τ ∧
      ((τ.component 0).kind, (τ.component 1).kind) = (some .numeric, some .categoric) ∧
      ((τ.part 0).data.bind fun b => b.columns.toOption.map List.length) = some 2 ∧
      ((pairOf "a" "b").labels τ).toOption.map (·.map List.length) = some (some 2) ∧
      ((pairOf "a" "b").levels τ).toOption = some (some ["p, u", "p, v", "q, u", "q, v"]) := by
  intro text before after first
  obtain ⟨_, τ, ended, view⟩ := @exists_ends_store Store Unit Bool
    (do first; (pairOf "a" "b").setData (.uniform true)) { components := #[{}, {}], parts := #[{}] }
    (fun _ τ => decide (((τ.component 0).kind, (τ.component 1).kind) =
        (some .numeric, some .categoric)) &&
      decide (((τ.part 0).data.bind fun b => b.columns.toOption.map List.length) = some 2) &&
      decide (((pairOf "a" "b").labels τ).toOption.map (·.map List.length) = some (some 2)) &&
      decide (((pairOf "a" "b").levels τ).toOption = some (some ["p, u", "p, v", "q, u", "q, v"])))
    true (by decide +kernel)
  obtain ⟨_, σ, typed, ended⟩ := ends_bind.mp ended
  simp only [Bool.and_eq_true, decide_eq_true_iff] at view
  obtain ⟨⟨⟨kinds, count⟩, count'⟩, levels⟩ := view
  exact ⟨σ, τ, typed, ended, kinds, count, count', levels⟩

end Term

end ModelFormula
