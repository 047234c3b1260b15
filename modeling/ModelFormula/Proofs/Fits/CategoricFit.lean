import ModelFormula.Proofs.Codings.LevelCodings
import ModelFormula.Proofs.Fits.KnownVariables

/-!
# Fitting categoric terms

A factor is a variable whose column holds texts or categories. Once its kind is known it is ready to
be coded. The data of a term of factors then have as many columns as its coding says.
-/
namespace ModelFormula

open List Component

/-- A column of texts or categories with a cell for every row. -/
structure Frame.HasFactor (f : Frame) (levels : String → List Datum) (n : String) : Prop where
  column : ∃ c, f.column? (.text n) = some c ∧ (c.isString || c.isCategory) = true ∧
    c.cells.length = f.height ∧ Levels.ofValue (.series c) = .ok (levels n)
  several : 2 ≤ (levels n).length

/-- A variable whose column is a factor. -/
def Component.IsFactor (f : Frame) (levels : String → List Datum) (c : Component) : Prop :=
  ∃ n r, c.atom = .variable (.text n) r ∧ f.HasFactor levels n

/-- The bare name. -/
def Component.label (c : Component) : String := c.name.plain

lemma Component.IsFactor.name {f : Frame} {levels : String → List Datum} {c : Component}
    (factor : c.IsFactor f levels) : c.name = .text c.label ∧ f.HasFactor levels c.label := by
  obtain ⟨n, r, atom, has⟩ := factor
  have name : c.name = .text n := by simp [Component.name, atom]
  have label : c.label = n := by simp [label, name, Literal.plain]
  rw [label]
  exact ⟨name, has⟩

/-- A factor whose kind is known. -/
structure Ready (f : Frame) (σ : Store) (c : Component) : Prop extends Plain σ c where
  kind : (σ.component c.slot).kind = some .categoric
  column : ∃ x, f.column? c.name = some x ∧ (σ.component c.slot).column = .series x

variable {f : Frame} {levels : String → List Datum} {c : Component} {σ : Store}
  {width : Component → Nat} {e : Effect} {flag : String → Bool}

lemma Column.isNumeric_eq_false {x : Column} (factor : (x.isString || x.isCategory)) :
    x.isNumeric = false := by
  obtain ⟨type, cells⟩ := x
  cases type with
  | plain d => cases d <;> simp_all [Column.isString, Column.isCategory, Column.isNumeric,
      CellType.isNumeric]
  | category | date => rfl

lemma Frame.HasFactor.isNumeric_eq_false (has : f.HasFactor levels n)
    (found : f.column? (.text n) = some x) : x.isNumeric = false := by
  obtain ⟨y, found', factor, _⟩ := has.column
  cases found.symm.trans found'
  exact Column.isNumeric_eq_false factor

/-! ### Kinds -/

/-- A factor is categoric as soon as its kind is known. -/
lemma Knows.ready (knows : Knows f σ c) (factor : c.IsFactor f levels) (plain : Plain σ c) :
    Ready f σ c := by
  obtain ⟨name, has⟩ := factor.name
  obtain ⟨x, found, column, ⟨_, numeric⟩ | kind⟩ := knows
  · cases (has.isNumeric_eq_false (name ▸ found)).symm.trans numeric
  · exact ⟨plain, kind, x, found, column⟩

lemma Ready.of_eq (ready : Ready f σ c) (size : τ.components.size = σ.components.size)
    (same : τ.component c.slot = σ.component c.slot) : Ready f τ c where
  bound := by rw [size]; exact ready.bound
  isResponse := by rw [same]; exact ready.isResponse
  kind := by rw [same]; exact ready.kind
  column := by rw [same]; exact ready.column

lemma Ready.of_kept (ready : Ready f σ c) (kept : Kept View.types except σ τ) : Ready f τ c where
  toPlain := ready.toPlain.of_sameRoles kept.sameRoles
  kind := (kept.kind c.slot).trans ready.kind
  column := by
    have same : (τ.component c.slot).column = (σ.component c.slot).column :=
      congrArg (·.2.1) (kept.component c.slot)
    rw [same]
    exact ready.column

/-! ### Data -/

/-- The numbers that a component has been given. -/
def Coded (f : Frame) (width : Component → Nat) (c : Component) (st : State) : Prop :=
  ∃ b, st.value = some b ∧ Wide f.height (width c) b

/-- Coding a factor gives it its columns. -/
lemma coded_of_setData (factor : c.IsFactor f levels) (ready : Ready f σ c)
    (own : width c = codedWidth b (levels c.label).length)
    (ends : Ends (Fit.step c (setData c.atom (.bool b))) σ () τ) :
    Coded f width c (τ.component c.slot) := by
  obtain ⟨name, has⟩ := factor.name
  obtain ⟨n, r, atom, _⟩ := factor
  obtain ⟨st, step, rfl⟩ := ends_step.mp ends
  obtain ⟨x, found, column⟩ := ready.column
  obtain ⟨y, found', _, tall, known⟩ := has.column
  -- the column that was kept with the kind is the one that the frame has
  have same : x = y := by
    rw [name, found'] at found
    exact (Option.some.inj found).symm
  subst same
  have codes : CodesLevels (.variable (.text n) r) (σ.component c.slot) :=
    ⟨ready.kind, by simp [ready.isResponse]⟩
  rw [atom, codes.ends_setData, column, ends_setLevels rfl] at step
  obtain ⟨_, contrast, value, known', coding, coded, rfl⟩ := step
  cases known.symm.trans known'
  have codes := codes_of_code coding
  obtain ⟨values, vector, count⟩ := column_values_vector x
  have wide := code_wide codes.numeric vector coded
  rw [codes.width, length_shown, count, tall] at wide
  rw [Coded, σ.putComponent_self c.slot _ ready.bound, own]
  exact ⟨value, rfl, wide⟩

/-! ### Terms -/

/-- The blocks of coded components. -/
lemma forall₂_columnBlock (coded : ∀ c ∈ cs, Coded f width c (σ.component c.slot))
    (mapped : List.Forall₂ (fun c b => Term.columnBlock (σ.component c.slot) = .ok b) cs blocks) :
    List.Forall₂ (Wide f.height) (cs.map width) blocks := by
  induction mapped with
  | nil => exact .nil
  | @cons c b cs blocks first _ ih =>
    refine .cons ?_ (ih fun d mem => coded d (mem_cons_of_mem c mem))
    obtain ⟨b', value, wide⟩ := coded c mem_cons_self
    simp only [Term.columnBlock, value, Except.ok.injEq] at first
    rwa [← first]

/-- The kind of a term of factors. -/
def Term.jointKind (t : Term) : Kind :=
  match t.components with
  | [_] => .categoric
  | _ => .interaction

lemma Term.single_of_jointKind (t : Term) (other : t.jointKind ≠ .interaction) :
    ∃ c, t.components = [c] := by
  unfold jointKind at other
  split at other
  next c shape => exact ⟨c, shape⟩
  next => exact absurd rfl other

/-- The numbers of columns of a term of factors are multiplied. -/
lemma Term.data_of_setData {t : Term} (coherent : Coherent t.components)
    (factors : ∀ c ∈ t.components, c.IsFactor f levels)
    (flags : ∀ c ∈ t.components, encoding.flag c.name = .ok (.bool (flag c.label)))
    (ready : ∀ c ∈ t.components, Ready f σ c) (bound : t.slot < σ.parts.size)
    (kind : (σ.part t.slot).kind = some t.jointKind) (ends : Ends (t.setData encoding) σ () τ) :
    ∃ b, (τ.part t.slot).data = some b ∧ DesignMatrix.columnCount b =
      (t.components.map fun c => codedWidth (flag c.label) (levels c.label).length).prod := by
  have widthPositive : ∀ c ∈ t.components,
      0 < codedWidth (flag c.label) (levels c.label).length := by
    intro c mem
    have several := (factors c mem).name.2.several
    unfold codedWidth
    split <;> omega
  obtain ⟨ρ, data, runs, changes, rfl, taken⟩ := setData_cases ends
  obtain ⟨_, coded, _⟩ := forall_of_setData
    (P := Coded f fun c => codedWidth (flag c.label) (levels c.label).length)
    (fun _ => False) coherent (Subset.refl _) (fun c mem d r r' told kept step => by
      cases (flags c mem).symm.trans told
      exact coded_of_setData (factors c mem) ((ready c mem).of_kept kept) rfl step) runs
  rw [Store.putPart_self _ _ _ (by rw [changes.partsSize]; exact bound)]
  rcases taken with ⟨_, blocks, product, mapped, multiplied, rfl⟩ | ⟨other, d, ds, shape, rfl⟩
  · have wide := forall₂_columnBlock coded ((mapM_ok_iff _ _ _).mp mapped)
    have all := wide_interactAll wide (by simpa using widthPositive) multiplied
    exact ⟨product, rfl, all.columnCount⟩
  · obtain ⟨c, single⟩ := t.single_of_jointKind (by simpa [kind] using other)
    obtain ⟨rfl, rfl⟩ := cons.inj (single.symm.trans shape)
    obtain ⟨b, value, wide⟩ := coded c (by simp [single])
    exact ⟨b, value, by simpa [single] using wide.columnCount⟩

/-! ### Effects -/

/-- The names of the factors of an effect. -/
def Effect.factors (e : Effect) : List String := e.held.map label

/-- An effect that is ready to be coded: an intercept that knows its height, or a term of factors. -/
inductive Typed (f : Frame) (σ : Store) : Effect → Prop
  | intercept {slot : Nat} (bound : slot < σ.parts.size)
      (height : (σ.part slot).height = some f.height) : Typed f σ (.intercept slot)
  | term {t : Term} (bound : t.slot < σ.parts.size)
      (kind : (σ.part t.slot).kind = some t.jointKind) (nonempty : t.components ≠ [])
      (ready : ∀ c ∈ t.components, Ready f σ c) : Typed f σ (.term t)

lemma Typed.ready (typed : Typed f σ e) : ∀ c ∈ e.held, Ready f σ c := by
  cases typed with
  | intercept => simp [Effect.held]
  | term _ _ _ ready => exact ready

/-- What is known of an effect of factors is all that coding it needs. -/
lemma Effect.Known.typed (known : e.Known f σ) (pos : e ≠ .negated) (filled : e.Filled)
    (factors : ∀ c ∈ e.held, c.IsFactor f levels) (bound : ∀ s ∈ e.slot?, s < σ.parts.size)
    (plain : ∀ c ∈ e.held, Plain σ c) : Typed f σ e := by
  cases known with
  | intercept height => exact .intercept (bound _ rfl) height
  | negated => exact absurd rfl pos
  | @term t kind knows =>
    refine .term (bound _ rfl) ?_ filled fun c mem =>
      (knows c mem).ready (factors c mem) (plain c mem)
    rcases shape : t.components with _ | ⟨c, _ | ⟨d, ds⟩⟩
    · exact absurd shape filled
    · have inside : c ∈ t.components := by simp [shape]
      obtain ⟨name, has⟩ := (factors c inside).name
      obtain ⟨x, found, _⟩ := knows c inside
      rw [kind.single c x shape found (has.isNumeric_eq_false (name ▸ found))]
      simp [Term.jointKind, shape]
    · rw [kind.joint.mpr (by simp [shape])]
      simp [Term.jointKind, shape]

lemma Typed.of_kept (typed : Typed f σ e) (kept : Kept View.types (fun _ => False) σ τ) :
    Typed f τ e := by
  cases typed with
  | @intercept slot bound height =>
    exact .intercept (by rw [kept.partsSize]; exact bound)
      ((congrArg (·.2) (kept.part slot id)).trans height)
  | @term t bound kind nonempty ready =>
    exact .term (by rw [kept.partsSize]; exact bound)
      ((congrArg (·.1) (kept.part t.slot id)).trans kind) nonempty
      fun c mem => (ready c mem).of_kept kept

/-- The numbers of columns that the factors of an effect have are multiplied. -/
lemma Effect.data_of_setData {encoding : Encoding} (coherent : Coherent e.held)
    (factors : ∀ c ∈ e.held, c.IsFactor f levels)
    (flags : ∀ c ∈ e.held, encoding.flag c.name = .ok (.bool (flag c.label))) (typed : Typed f σ e)
    (ends : Ends (e.setData encoding) σ () τ) :
    ∃ b, e.data? τ = .ok (some b) ∧ DesignMatrix.columnCount b =
      (e.factors.map fun n => codedWidth (flag n) (levels n).length).prod := by
  cases typed with
  | @intercept slot bound height =>
    have rest := ends_get_bind.mp ends
    obtain rfl := ends_setPart.mp rest
    refine ⟨Effect.ones (some f.height), ?_, rfl⟩
    rw [Effect.data?, Store.putPart_self _ _ _ bound, height]
  | @term t bound kind nonempty ready =>
    obtain ⟨b, data, columns⟩ := t.data_of_setData coherent factors flags ready bound kind ends
    refine ⟨b, by rw [Effect.data?, data], ?_⟩
    rw [columns, Effect.factors, map_map]
    rfl

/-- After the loop over the effects each has its columns. -/
lemma data_of_setDatas (coherent : Coherent (es.flatMap Effect.held))
    (factors : ∀ e ∈ es, ∀ c ∈ e.held, c.IsFactor f levels) (nodup : DistinctSlots es)
    (choice : Effect → Except Fault Encoding) (flag : Effect → String → Bool)
    (flags : ∀ e ∈ es, ∀ encoding, choice e = .ok encoding → ∀ c ∈ e.held,
      encoding.flag c.name = .ok (.bool (flag e c.label))) (typed : ∀ e ∈ es, Typed f σ e)
    (runs : RunsAll (fun e => do e.setData (← choice e)) es σ τ) :
    ∀ e ∈ es, (∃ encoding, choice e = .ok encoding) ∧
      ∃ b, e.data? τ = .ok (some b) ∧ DesignMatrix.columnCount b =
        (e.factors.map fun n => codedWidth (flag e n) (levels n).length).prod := by
  refine (runs.establishes (I := Kept View.types (fun _ => False) σ)
    (Q := fun e σ => (∃ encoding, choice e = .ok encoding) ∧
      ∃ b, e.data? σ = .ok (some b) ∧ DesignMatrix.columnCount b =
        (e.factors.map fun n => codedWidth (flag e n) (levels n).length).prod) ?_ (Kept.refl σ)).2
  intro e mem r r' step kept
  obtain ⟨encoding, chosen, step⟩ := ends_lift_bind.mp step
  have changes := e.confined_setData encoding r () r' step
  have held : e.held ⊆ es.flatMap Effect.held := fun c inside => mem_flatMap.mpr ⟨e, mem, inside⟩
  have data := e.data_of_setData (fun c left d right => coherent c (held left) d (held right))
    (factors e mem) (flags e mem encoding chosen) ((typed e mem).of_kept kept) step
  refine ⟨kept.trans (e.keeping_setData encoding r () r' step), ⟨⟨encoding, chosen⟩, data⟩, ?_⟩
  intro d inside dataBefore
  by_cases eq : d = e
  · rw [eq]
    exact ⟨⟨encoding, chosen⟩, data⟩
  · rwa [Effect.data?_of_eq fun s slot => changes.part s fun owns =>
      eq (nodup d inside e mem s slot owns)]

end ModelFormula
