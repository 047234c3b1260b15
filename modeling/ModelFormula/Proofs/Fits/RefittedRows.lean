import ModelFormula.Proofs.Fits.RefittedDesigns

/-!
# Terms on new data

Where a row of a new frame has the values of an old row, it gets the numbers of the old row. Levels
are coded by whole numbers at first and by fractions later, so beside such a factor products must be
small enough for a fraction.
-/
namespace ModelFormula

open List

variable {f g : Frame} {m : Model} {t : Term} {σ τ υ : Store} {encoding : Encoding}

namespace Term

/-- Some factor of the term is coded by whole numbers. -/
def WholeCoded (t : Term) (σ : Store) : Prop := ∃ c ∈ t.components, c.WholeCoded σ

/-- The variables of the term have the same values in the two rows. -/
def SameValues (t : Term) (f g : Frame) (i j : Nat) : Prop :=
  ∀ c ∈ t.components, ∀ x y, f.column? c.name = some x → g.column? c.name = some y →
    x.values.grid.cells[i]? = y.values.grid.cells[j]?

/-- Nothing is missing in the variables of the term, and numbers are of the same sort in both frames. -/
def Columns (t : Term) (f g : Frame) : Prop :=
  ∀ c ∈ t.components, ∀ x, f.column? c.name = some x → x.Clean f.height ∧
    ∃ y, g.column? c.name = some y ∧ y.Clean g.height ∧ (x.isNumeric = true → y.type = x.type)

/-- In a term every variable is told its coding by name, so each slot has one. -/
lemma exists_tells (coherent : Coherent cs) (encoding : Encoding) (σ : Store) :
    ∃ flag, ∀ c ∈ cs, Tells flag σ encoding c := by
  classical
  refine ⟨fun s => decide (∃ c ∈ cs, c.slot = s ∧ ∃ d, encoding.flag c.name = .ok d ∧
    d.truthy), fun c mem d told _ => ?_⟩
  rw [Bool.eq_iff_iff, decide_eq_true_iff]
  constructor
  · exact fun truthy => ⟨c, mem, rfl, d, told, truthy⟩
  · rintro ⟨c', mem', same, d', told', truthy⟩
    rw [coherent c' mem' c mem same, told] at told'
    cases told'
    exact truthy

lemma exists_data (inside : t.slot < τ.parts.size) (ends : Ends (t.setData encoding) τ () υ)
    (values : ∀ c ∈ t.components, ∃ v, (υ.component c.slot).value = some v) :
    ∃ b, (υ.part t.slot).data = some b := by
  obtain ⟨ρ, data, _, changes, rfl, taken⟩ := setData_cases ends
  rw [Store.putPart_self _ _ _ (by rw [changes.partsSize]; exact inside)]
  rcases taken with ⟨_, _, b, _, _, rfl⟩ | ⟨_, c, cs, shape, rfl⟩
  · exact ⟨b, rfl⟩
  · exact values c (by simp [shape])

/-- A row of new data has the numbers of any row of the fitted data that has the same values in the
variables of the term. In whatever order levels are gone through, the evaluation ends with the same
block, of as many columns, and changes nothing. -/
theorem newData_of_sameValues {scope : Scope Value}
    (separate : (Operand.model m).pool.Separate {} σ)
    (plain : ∀ c ∈ m.allComponents, c.IsVariable) (member : .term t ∈ m.allEffects)
    (typed : Ends (m.setKinds (.frame f) scope) σ () τ) (taken : Ends (t.setData encoding) τ () υ)
    (columns : t.Columns f g)
    (small : t.WholeCoded υ → ∀ i < f.height, magnitudeOf υ t.components i ≤ 2 ^ 53) :
    ∃ b b' n n', (υ.part t.slot).data = some b ∧ (∀ e, Ends (t.newDataBy e (.frame g)) υ b' υ) ∧
      b.matrix? = some n ∧ b'.matrix? = some n' ∧ n.height = f.height ∧ n'.height = g.height ∧
      n'.width = n.width ∧ ∀ i j r r', t.SameValues f g i j → n.rows[i]? = some r →
        n'.rows[j]? = some r' → List.Forall₂ (fun x y => x = y ∨ (x == y) = true) r r' := by
  have known := Model.setKinds_known separate plain typed
  have held : t.components ⊆ m.allComponents := m.held_subset_allComponents _ member
  obtain ⟨flag, tells⟩ := exists_tells known.separate.all.coherent encoding τ
  obtain ⟨settling, current⟩ :=
    t.current_of_setData known member (fun c own => tells c (held own)) taken
  have plain : ∀ c ∈ t.components, c.IsVariable := fun c own => plain c (held own)
  let ρ : Pairing := ⟨f.height, g.height, t.SameValues f g, t.WholeCoded υ⟩
  have alike : ∀ c ∈ t.components, c.AlikeIn ρ f g υ := by
    refine fun c own => ⟨fun whole => ⟨c, own, whole⟩, fun x found => ?_⟩
    obtain ⟨clean, y, found', clean', sort⟩ := columns c own x found
    exact ⟨y, found', clean, clean', sort, fun i j same => same c own x y found found'⟩
  -- the fitted frame itself bounds what stands in its rows
  have self : ∀ c ∈ t.components, c.AlikeIn (.same f.height (t.WholeCoded υ)) f f υ :=
    fun c own => ⟨fun whole => ⟨c, own, whole⟩, fun x found =>
      ⟨x, found, (columns c own x found).1.alike⟩⟩
  obtain ⟨b, data⟩ := exists_data (known.separate.all.parts _ member t.slot rfl).2 taken
    fun c own => by
      obtain ⟨v, _, value, _⟩ := (current.settled c own).newData (plain c own) (alike c own)
      exact ⟨v, value⟩
  obtain ⟨b', ends, echoes⟩ := Term.newData_echoes ((known.of_kept settling.kept).effects _ member)
    plain current.settled alike
    (fun whole => magnitudeOf_le plain current.settled self (small whole))
    (current.data b (congrArg Except.ok data))
  obtain ⟨n, n', shape, shape', rows⟩ := echoes.rows
  exact ⟨b, b', n, n', data, ends, shape, shape', rows.height, rows.height', rows.width,
    fun i j r r' same found found' =>
      (rows.rows i j r r' same found found').imp fun _ _ => Echo.equal⟩

open Design

/-- A whole number and a factor. -/
def numberAndFactor (ns : List Int) (texts : List String) : Frame :=
  ⟨ns.length, [(.text "a", ⟨.plain .int, ns.map .int⟩), (.text "b", ⟨.plain .object, texts.map .text⟩)]⟩

/-- The interaction `a:b`. -/
def numberWithFactor : Term :=
  ⟨3, [⟨0, .variable (.text "a") none⟩, ⟨1, .variable (.text "b") none⟩]⟩

set_option maxRecDepth 100000 in
/-- The second row of the new frame is the first of the old one, and its third has a level of its own. -/
theorem newData_of_sameValues_swapped :
    let f := numberAndFactor [2, 3] ["p", "q"]
    let g := numberAndFactor [3, 2, 7] ["q", "p", "z"]
    ∃ τ υ b b' n n', Ends ((interactionModel 3 ["a", "b"]).setKinds (.frame f) ⟨[]⟩) (untouched 2 4)
        () τ ∧ Ends (numberWithFactor.setData (.uniform true)) τ () υ ∧
      (υ.part 3).data = some b ∧ (∀ e, Ends (numberWithFactor.newDataBy e (.frame g)) υ b' υ) ∧
      b.matrix? = some n ∧ b'.matrix? = some n' ∧ ∀ r r', n.rows[0]? = some r →
        n'.rows[1]? = some r' → List.Forall₂ (fun x y => x = y ∨ (x == y) = true) r r' := by
  intro f g
  obtain ⟨_, υ, ended, small⟩ := @exists_ends_store Store Unit Bool (do
      (interactionModel 3 ["a", "b"]).setKinds (.frame f) ⟨[]⟩
      numberWithFactor.setData (.uniform true)) (untouched 2 4)
    (fun _ υ => decide (∀ i < 2, magnitudeOf υ numberWithFactor.components i ≤ 2 ^ 53)) true
    (by decide +kernel)
  obtain ⟨_, τ, typed, taken⟩ := ends_bind.mp ended
  have columns : numberWithFactor.Columns f g := by
    intro c member x found
    rcases mem_pair.mp member with rfl | rfl <;> cases found
    · exact ⟨clean_ints [2, 3], _, rfl, clean_ints [3, 2, 7], fun _ => rfl⟩
    · exact ⟨clean_texts ["p", "q"], _, rfl, clean_texts ["q", "p", "z"], fun _ => rfl⟩
  have same : numberWithFactor.SameValues f g 0 1 := by
    intro c member x y found found'
    rcases mem_pair.mp member with rfl | rfl <;> cases found <;> cases found' <;> rfl
  have plain : ∀ c ∈ (interactionModel 3 ["a", "b"]).allComponents, c.IsVariable := by
    intro c member
    rcases mem_pair.mp member with rfl | rfl <;> exact ⟨_, _, rfl⟩
  obtain ⟨b, b', n, n', data, ends, shape, shape', -, -, -, rows⟩ := newData_of_sameValues
    (Operand.ofFormula_separate ofFormula_pair) plain
    (mem_append_left _ (by simp [interactionModel, numberWithFactor])) typed taken columns
    fun _ => of_decide_eq_true small
  exact ⟨τ, υ, b, b', n, n', typed, taken, data, ends, shape, shape', fun r r' => rows 0 1 r r' same⟩

set_option maxRecDepth 100000 in
/-- Beside a factor that is coded by whole numbers, `a:b:c` has a product of whole numbers when it is
fitted, which overflows to zero, and one of fractions on the same data. -/
theorem newData_of_large :
    let f : Frame := ⟨1, [(.text "a", ⟨.plain .int, [.int (2 ^ 62)]⟩),
      (.text "b", ⟨.plain .object, [.text "p"]⟩), (.text "c", ⟨.plain .int, [.int 4]⟩)]⟩
    let t : Term := ⟨5, [⟨0, .variable (.text "a") none⟩, ⟨1, .variable (.text "b") none⟩,
      ⟨2, .variable (.text "c") none⟩]⟩
    let fit : Fit Unit := do
      (interactionModel 5 ["a", "b", "c"]).setKinds (.frame f) ⟨[]⟩
      t.setData (.uniform true)
    let shows (b : Block) (x : Datum) : Option Bool := b.matrix?.map (·.rows == [[x]])
    ∃ υ υ' b b', Ends fit (untouched 3 6) () υ ∧ (υ.part 5).data = some b ∧
      Ends (t.newData (.frame f)) υ b' υ' ∧ shows b (.int 0) = some true ∧
      shows b' (.float 18446744073709551616.0) = some true := by
  intro f t fit shows
  obtain ⟨_, υ, ended, view⟩ := @exists_ends_store Store Unit _ fit (untouched 3 6)
    (fun _ υ => ((υ.part 5).data.map (shows · (.int 0)),
      (outcome (t.newData (.frame f)) υ).1.toOption.map (shows · (.float 18446744073709551616.0))))
    (some (some true), some (some true)) (by decide +kernel)
  obtain ⟨fitted, evaluated⟩ := Prod.mk.inj view
  obtain ⟨b, data, zero⟩ := Option.map_eq_some_iff.mp fitted
  obtain ⟨b', υ', again, large⟩ := exists_ends evaluated
  exact ⟨υ, υ', b, b', ended, data, again, zero, large⟩

end Term

end ModelFormula
