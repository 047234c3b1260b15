import ModelFormula.Proofs.Fits.KnownVariables
import ModelFormula.Proofs.Fits.RefittedVariables

/-!
# Models whose variables are settled

A part of a model is current if its data are what the numbers of its components give now. Taking the
data of a part may settle anew a variable that others share; if all ask for one coding, the others
stay current.
-/
namespace ModelFormula

open List ModelFormula.Part

variable {e : Effect} {p : Part} {encoding : Encoding} {g : GroupTerm} {b : Bool}

/-! ### What the components give -/

/-- The data of an effect by the numbers of its components. -/
def Effect.product (height : Nat) (σ : Store) : Effect → Except Fault Block
  | .intercept _ => .ok (ones (some height))
  | .negated => .error .noAttribute
  | .term t => do Block.interactAll (← t.components.mapM fun c => Term.columnBlock (σ.component c.slot))

namespace Part

def held : Part → List Component
  | .effect e => e.held
  | .group g => g.held

/-- The slots that are set when a part takes its data. -/
def slots : Part → List Nat
  | .effect e => e.slot?.toList
  | .group g => g.slots

/-- The data of a part by the numbers of its components. -/
def product (height : Nat) (σ : Store) : Part → Except Fault Block
  | .effect e => e.product height σ
  | .group g => do Block.grouped (← g.factor.product height σ) (← g.expr.product height σ)

end Part

variable {f : Frame} {σ τ : Store} {c : Component}

lemma mapM_congr {α β : Type} {g h : α → Except Fault β} {xs : List α}
    (same : ∀ x ∈ xs, g x = h x) : xs.mapM g = xs.mapM h := by
  induction xs with
  | nil => rfl
  | cons x xs ih =>
    obtain ⟨first, others⟩ := forall_mem_cons.mp same
    rw [mapM_cons, mapM_cons, first, ih others]

lemma Effect.product_congr
    (same : ∀ c ∈ e.held, (τ.component c.slot).value = (σ.component c.slot).value) :
    e.product h τ = e.product h σ := by
  cases e with
  | intercept | negated => rfl
  | term t =>
    have blocks : t.components.mapM (fun c => Term.columnBlock (τ.component c.slot)) =
        t.components.mapM fun c => Term.columnBlock (σ.component c.slot) := by
      refine mapM_congr fun c mem => ?_
      rw [Term.columnBlock, Term.columnBlock, same c mem]
    rw [product, product, blocks]

lemma Part.product_congr
    (same : ∀ c ∈ p.held, (τ.component c.slot).value = (σ.component c.slot).value) :
    p.product h τ = p.product h σ := by
  cases p with
  | effect e => exact Effect.product_congr same
  | group g =>
    rw [product, product, Effect.product_congr fun c held => same c (mem_append_left _ held),
      Effect.product_congr fun c held => same c (mem_append_right _ held)]

lemma Part.data?_of_eq (same : ∀ s ∈ p.slot?, τ.part s = σ.part s) : p.data? τ = p.data? σ := by
  cases p with
  | effect e => exact Effect.data?_of_eq same
  | group g => simp [data?, same g.slot rfl]

/-! ### Settled variables -/

/-- A variable that has taken the numbers of its column, with the coding of its slot. -/
def Settles (f : Frame) (flag : Nat → Bool) (σ : Store) (c : Component) : Prop :=
  ∃ x, f.column? c.name = some x ∧ Settled x (flag c.slot) (σ.component c.slot)

variable {flag : Nat → Bool}

lemma Settles.of_eq (settles : Settles f flag σ c)
    (same : τ.component c.slot = σ.component c.slot) : Settles f flag τ c := by
  rw [Settles, same]
  exact settles

/-- A variable that is settled twice has the same numbers. -/
lemma Settles.value_eq (before : Settles f flag σ c) (after : Settles f flag τ c)
    (kind : (τ.component c.slot).kind = (σ.component c.slot).kind) :
    (τ.component c.slot).value = (σ.component c.slot).value := by
  obtain ⟨x, found, settled⟩ := before
  obtain ⟨y, found', settled'⟩ := after
  cases found.symm.trans found'
  exact settled'.value_eq settled kind

lemma settles_of_setData (isVariable : c.IsVariable) (knows : Knows f σ c) (plain : Plain σ c)
    (asked : (σ.component c.slot).kind = some .categoric → d.truthy = flag c.slot)
    (ends : Ends (Fit.step c (Component.setData c.atom d)) σ () τ) : Settles f flag τ c := by
  obtain ⟨n, r, atom⟩ := isVariable
  obtain ⟨st, step, rfl⟩ := ends_step.mp ends
  obtain ⟨x, found, column, kind⟩ := knows
  have types := leaves_setData c.atom d _ _ _ step
  rw [atom] at step
  have settled := settled_of_setData column kind plain.isResponse step
  refine ⟨x, found, ?_⟩
  rw [Store.putComponent_self _ _ _ plain.bound]
  refine settled.of_flag fun categoric => asked ?_
  have same : st.kind = (σ.component c.slot).kind := congrArg Prod.fst types
  rw [← same, categoric]

/-- A part whose variables are settled and whose data are what they give. -/
structure Part.Current (f : Frame) (flag : Nat → Bool) (σ : Store) (p : Part) : Prop where
  settled : ∀ c ∈ p.held, Settles f flag σ c
  data : ∀ b, p.data? σ = .ok (some b) → p.product f.height σ = .ok b

/-- A part stays current while its own data and the settling of its variables stay. -/
lemma Part.Current.keep (current : p.Current f flag σ)
    (kinds : ∀ c ∈ p.held, (τ.component c.slot).kind = (σ.component c.slot).kind)
    (settles : ∀ c ∈ p.held, Settles f flag σ c → Settles f flag τ c)
    (same : ∀ s ∈ p.slot?, τ.part s = σ.part s) : p.Current f flag τ := by
  have settled : ∀ c ∈ p.held, Settles f flag τ c := fun c held =>
    settles c held (current.settled c held)
  refine ⟨settled, fun b data => ?_⟩
  rw [product_congr fun c held => (current.settled c held).value_eq (settled c held) (kinds c held)]
  exact current.data b (by rwa [← data?_of_eq same])

/-! ### Taking data -/

/-- The own slots of group-specific terms, which take a kind with their data. -/
def Model.GroupSlot (m : Model) (s : Nat) : Prop := ∃ g ∈ m.group, g.slot = s

section Data

variable {m : Model}

/-- Taking data leaves a model known. -/
lemma Model.Known.of_kept (known : m.Known f σ) (kept : Kept View.types m.GroupSlot σ τ) :
    m.Known f τ := by
  refine ⟨known.separate.refit kept.sameRoles, known.common, known.listed, known.plain,
    fun e mem => (known.effects e mem).of_kept kept ?_, known.filled⟩
  rintro s slot ⟨g, among, rfl⟩
  exact (known.separate.all.grouped g among).2 e mem slot

lemma Model.Known.knows (known : m.Known f σ) : ∀ c ∈ m.allComponents, Knows f σ c := by
  intro c mem
  obtain ⟨e, inside, held⟩ := mem_allComponents.mp mem
  exact (known.effects e inside).knows c held

/-- What a step that takes data does: types stay, and so does the settling of variables. -/
structure Settling (f : Frame) (flag : Nat → Bool) (m : Model) (σ τ : Store) : Prop where
  kept : Kept View.types m.GroupSlot σ τ
  settles : ∀ c ∈ m.allComponents, Settles f flag σ c → Settles f flag τ c

lemma Settling.refl (σ : Store) : Settling f flag m σ σ := ⟨Kept.refl σ, fun _ _ before => before⟩

lemma Settling.trans (first : Settling f flag m σ ρ) (second : Settling f flag m ρ τ) :
    Settling f flag m σ τ :=
  ⟨first.kept.trans second.kept, fun c mem before =>
    second.settles c mem (first.settles c mem before)⟩

/-- The coding that a component is told is that of its slot, if it has levels to be coded. -/
def Tells (flag : Nat → Bool) (σ : Store) (encoding : Encoding) (c : Component) : Prop :=
  ∀ d, encoding.flag c.name = .ok d → (σ.component c.slot).kind = some .categoric →
    d.truthy = flag c.slot

lemma settling_of_loop (known : m.Known f σ) (inside : cs ⊆ m.allComponents)
    (tells : ∀ c ∈ cs, Tells flag σ encoding c)
    (runs : RunsAll (fun c => do Fit.step c (Component.setData c.atom (← encoding.flag c.name)))
      cs σ τ) : Settling f flag m σ τ ∧ ∀ c ∈ cs, Settles f flag τ c := by
  -- a step settles its component and leaves settled whatever shares the slot
  obtain ⟨kept, settled, stays⟩ := forall_of_setData
    (P := fun c st => ∃ x, f.column? c.name = some x ∧ Settled x (flag c.slot) st)
    m.GroupSlot known.separate.all.coherent inside (fun c mem d r r' told kept step => by
      have known := known.of_kept kept
      have among := inside mem
      refine settles_of_setData (known.plain_of_mem among) (known.knows c among)
        (known.separate.all.components c among).2 (fun categoric => tells c mem d told ?_) step
      rw [← kept.kind, categoric]) runs
  exact ⟨⟨kept, stays⟩, settled⟩

lemma Term.current_of_setData (known : m.Known f σ) (mem : .term t ∈ m.allEffects)
    (tells : ∀ c ∈ t.components, Tells flag σ encoding c) (ends : Ends (t.setData encoding) σ () τ) :
    Settling f flag m σ τ ∧ (effect (.term t)).Current f flag τ := by
  obtain ⟨ρ, data, runs, changes, rfl, taken⟩ := setData_cases ends
  obtain ⟨settling, settled⟩ := settling_of_loop known (m.held_subset_allComponents _ mem) tells runs
  have bound : t.slot < ρ.parts.size := by
    rw [changes.partsSize]
    exact (known.separate.all.parts _ mem t.slot rfl).2
  have types : Kept View.types m.GroupSlot σ (ρ.putPart t.slot { σ.part t.slot with data }) :=
    (Effect.term t).keeping_setData encoding σ () _ ends
  refine ⟨⟨types, fun c inside before => (settling.settles c inside before).of_eq rfl⟩,
    fun c held => (settled c held).of_eq rfl, fun b isData => ?_⟩
  simp only [data?, Effect.data?, Store.putPart_self _ _ _ bound, Except.ok.injEq] at isData
  change (Effect.term t).product f.height ρ = .ok b
  rcases taken with ⟨_, blocks, b', mapped, multiplied, rfl⟩ | ⟨other, c, cs, shape, rfl⟩
  · cases isData
    rw [Effect.product, mapped]
    exact multiplied
  · -- what is no interaction has a single component
    have joint : (σ.part t.slot).kind = some .interaction ↔ 1 < t.components.length := by
      cases known.effects _ mem with
      | term kind _ => exact kind.joint
    have few := mt joint.mpr other
    have single : cs = [] := by
      rw [shape, length_cons] at few
      exact length_eq_zero_iff.mp (by omega)
    rw [Effect.product, shape, single]
    simp [Term.columnBlock, isData, Block.interactAll, ok_bind, pure_ok]

lemma Effect.current_of_setData (known : m.Known f σ) (mem : e ∈ m.allEffects)
    (tells : ∀ c ∈ e.held, Tells flag σ encoding c) (ends : Ends (e.setData encoding) σ () τ) :
    Settling f flag m σ τ ∧ (Part.effect e).Current f flag τ := by
  cases e with
  | negated =>
    obtain ⟨_, rfl⟩ := ends_pure.mp ends
    exact ⟨Settling.refl σ, by simp [Part.held, Effect.held], fun b data => by cases data⟩
  | intercept slot =>
    have types : Kept View.types m.GroupSlot σ τ :=
      (Effect.intercept slot).keeping_setData encoding σ () τ ends
    have bound : slot < σ.parts.size := (known.separate.all.parts _ mem slot rfl).2
    have rest := ends_get_bind.mp ends
    obtain rfl := ends_setPart.mp rest
    have height : (σ.part slot).height = some f.height := by
      cases known.effects _ mem with
      | intercept height => exact height
    refine ⟨⟨types, fun c _ before => before.of_eq rfl⟩, by simp [Part.held, Effect.held],
      fun b data => ?_⟩
    simp only [Part.data?, Effect.data?, Store.putPart_self _ _ _ bound, height, Except.ok.injEq,
      Option.some.injEq] at data
    rw [← data]
    rfl
  | term t => exact t.current_of_setData known mem tells ends

/-- The part of a group-specific term is none of an effect. -/
lemma settling_of_setPart (mem : g ∈ m.group) (ends : Ends (Fit.setPart g.slot change) σ () τ) :
    Settling f flag m σ τ ∧ ∀ e : Effect, g.slot ∉ e.slot? →
      (effect e).Current f flag σ → (effect e).Current f flag τ := by
  have types : Kept View.types m.GroupSlot σ τ := keeping_setPart (.inl ⟨g, mem, rfl⟩) σ () τ ends
  have changes := confined_setPart (C := fun _ => False) g.slot change σ () τ ends
  have settles (c : Component) (before : Settles f flag σ c) : Settles f flag τ c :=
    before.of_eq (changes.component _ id)
  refine ⟨⟨types, fun c _ => settles c⟩, fun e other current => ?_⟩
  refine current.keep (fun c _ => types.kind c.slot) (fun c _ => settles c) fun s slot => changes.part s ?_
  rintro rfl
  exact other slot

/-- The expression takes its data first and is current when the factor has taken its own. -/
lemma GroupTerm.effects_current (known : m.Known f σ) (mem : g ∈ m.group)
    (expr : ∀ c ∈ g.expr.held, Tells flag σ (.uniform b) c)
    (factor : ∀ c ∈ g.factor.held, Tells flag σ (.uniform true) c)
    (first : Ends (g.expr.setData (.uniform b)) σ () ρ)
    (second : Ends (g.factor.setData (.uniform true)) ρ () τ) :
    Settling f flag m σ τ ∧ ∀ e ∈ g.effects, (effect e).Current f flag τ := by
  have inEffects {e : Effect} (inside : e ∈ g.effects) : e ∈ m.allEffects :=
    Model.mem_allEffects_of_group mem inside
  have exprIn : g.expr ∈ m.allEffects := inEffects (by simp [effects])
  have factorIn : g.factor ∈ m.allEffects := inEffects (by simp [effects])
  obtain ⟨settling, exprCurrent⟩ := g.expr.current_of_setData known exprIn expr first
  have known := known.of_kept settling.kept
  obtain ⟨settling', factorCurrent⟩ := g.factor.current_of_setData known factorIn
    (fun c held d told categoric => factor c held d told (by rwa [← settling.kept.kind])) second
  have changes := g.factor.confined_setData _ ρ () τ second
  -- the expression is still current: its part is another one, or it is the factor itself
  have exprCurrent : (effect g.expr).Current f flag τ := by
    by_cases eq : g.expr = g.factor
    · rw [eq]
      exact factorCurrent
    · refine exprCurrent.keep (fun c _ => settling'.kept.kind c.slot)
        (fun c held => settling'.settles c (m.held_subset_allComponents _ exprIn held)) fun s slot => ?_
      exact changes.part s fun owns =>
        eq (known.separate.all.distinct _ exprIn _ factorIn s slot owns)
  exact ⟨settling.trans settling', by simp [effects, exprCurrent, factorCurrent]⟩

/-- The data of a group-specific term are those of its expression for every group of its factor. -/
lemma GroupTerm.current_of_setData (known : m.Known f σ) (mem : g ∈ m.group)
    (expr : ∀ c ∈ g.expr.held, Tells flag σ (.uniform b) c)
    (factor : ∀ c ∈ g.factor.held, Tells flag σ (.uniform true) c)
    (ends : Ends (g.setData (.uniform b)) σ () τ) :
    Settling f flag m σ τ ∧ (group g).Current f flag τ := by
  obtain ⟨range, other⟩ := known.separate.all.grouped g mem
  have apart {e : Effect} (inside : e ∈ g.effects) : g.slot ∉ e.slot? :=
    other e (Model.mem_allEffects_of_group mem inside)
  obtain ⟨_, ρ₁, ρ₂, ρ₃, _, x, j, data, _, first, second, _, third, left, right, grouped, last⟩ :=
    setData_cases ends
  obtain ⟨settling₂, current₂⟩ := g.effects_current known mem expr factor first second
  obtain ⟨settling₃, stay⟩ := settling_of_setPart mem third
  -- both are current, so their data are the products that the term is made of
  have current {e : Effect} (inside : e ∈ g.effects) : (effect e).Current f flag ρ₃ :=
    stay e (apart inside) (current₂ e inside)
  have exprCurrent := current (e := g.expr) (by simp [effects])
  have factorCurrent := current (e := g.factor) (by simp [effects])
  have settling := settling₂.trans settling₃
  obtain ⟨settling₄, -⟩ : Settling f flag m _ _ ∧ _ := settling_of_setPart mem last
  have bound : g.slot < ρ₃.parts.size := by
    rw [settling.kept.partsSize]
    exact range.2
  obtain rfl := ends_setPart.mp last
  refine ⟨settling.trans settling₄, fun c held => ?_, fun b isData => ?_⟩
  · rcases mem_append.mp held with left | right
    · exact (exprCurrent.settled c left).of_eq rfl
    · exact (factorCurrent.settled c right).of_eq rfl
  · simp only [data?, Store.putPart_self _ _ _ bound, Except.ok.injEq, Option.some.injEq] at isData
    have left : g.expr.product f.height ρ₃ = .ok x := exprCurrent.data x left
    have right : g.factor.product f.height ρ₃ = .ok j := factorCurrent.data j right
    -- the part has changed and no component
    change (group g).product f.height ρ₃ = .ok b
    rw [Part.product, left, right, ← isData]
    exact grouped

/-! ### All parts -/

/-- The place of a part in the pool of its model. -/
def Part.place : Part → Place
  | .effect _ => .atHand
  | .group _ => .grouped

lemma Model.mem_partOwners (mem : p ∈ m.parts) :
    (p.place, p) ∈ (Operand.model m).pool.partOwners := by
  rcases mem_append.mp mem with common | group
  · obtain ⟨e, inside, rfl⟩ := mem_map.mp common
    simp [Pool.partOwners, place, Operand.pool, Operand.effects, inside]
  · obtain ⟨g, inside, rfl⟩ := mem_map.mp group
    simp [Pool.partOwners, place, Operand.pool, Operand.groups, inside]

/-- The slot that has the data of a part is set for no other part. -/
lemma Model.Known.eq_of_slot (known : m.Known f σ) (left : p ∈ m.parts) (right : q ∈ m.parts)
    (slot : s ∈ p.slot?) (set : s ∈ q.slots) : p = q := by
  have parts := known.separate.parts
  have same (own : s ∈ q.slot?) : p = q :=
    congrArg Prod.snd (parts.unique _ (mem_partOwners left) _ (mem_partOwners right) s slot own)
  rcases mem_append.mp right with common | group
  · obtain ⟨e, _, rfl⟩ := mem_map.mp common
    exact same (Option.mem_toList.mp set)
  · obtain ⟨g, among, rfl⟩ := mem_map.mp group
    rcases GroupTerm.mem_slots.mp set with own | ⟨e, inside, owns⟩
    · exact same (congrArg some own)
    · -- an effect of a grouping is no part of the model
      have owner : (.grouped, .effect e) ∈ (Operand.model m).pool.partOwners := by
        have listed : e ∈ (Operand.model m).pool.groupEffects := mem_flatMap.mpr ⟨g, among, inside⟩
        simp [Pool.partOwners, listed]
      have eq := parts.unique _ (mem_partOwners left) _ owner s slot owns
      cases p <;> cases eq

lemma Model.held_subset_of_mem_parts (mem : p ∈ m.parts) : p.held ⊆ m.allComponents := by
  rcases mem_append.mp mem with common | group
  · obtain ⟨e, inside, rfl⟩ := mem_map.mp common
    exact m.held_subset_allComponents e (mem_append_left _ inside)
  · obtain ⟨g, inside, rfl⟩ := mem_map.mp group
    intro c held
    exact mem_append_right _ (mem_flatMap.mpr ⟨g, inside, held⟩)

/-- When one part takes its data all parts that are current stay so. -/
lemma Model.Known.current_kept (known : m.Known f σ) (left : p ∈ m.parts) (right : q ∈ m.parts)
    (settling : Settling f flag m σ τ) (changes : Changes C (· ∈ q.slots) σ τ)
    (own : q.Current f flag τ) (current : p.Current f flag σ) : p.Current f flag τ := by
  by_cases eq : p = q
  · rw [eq]
    exact own
  · refine current.keep (fun c _ => settling.kept.kind c.slot)
      (fun c held => settling.settles c (held_subset_of_mem_parts left held)) fun s slot => ?_
    exact changes.part s fun set => eq (known.eq_of_slot left right slot set)

/-! ### What the components are told -/

/-- What a component of a common effect is told: the first coding of the effect's name decides. -/
def Model.told (σ : Store) (m : Model) (e : Effect) (c : Component) : Except Fault Datum := do
  let encoding ← encodingOf (← codings σ m) e.name
  encoding.flag c.name

/-- For every term, whether each of its components is asked to span the intercept. A factor does so,
and an expression unless an intercept varies by the same factor. -/
def Model.asks (σ : Store) (m : Model) : List (Component × Bool) :=
  (m.common.flatMap fun e => e.held.filterMap fun c =>
    (m.told σ e c).toOption.map fun d => (c, d.truthy)) ++
  m.group.flatMap fun g =>
    (g.expr.held.filterMap fun c => (groupSpans σ.kinds m g).toOption.map fun b => (c, b)) ++
      g.factor.held.map fun c => (c, true)

/-- Terms that share a component with levels ask it for the same coding. -/
def Model.OneCoding (σ : Store) (m : Model) : Prop :=
  ∀ p ∈ m.asks σ, ∀ q ∈ m.asks σ, p.1.slot = q.1.slot →
    (σ.component p.1.slot).kind = some .categoric → p.2 = q.2

instance (σ : Store) (m : Model) : Decidable (m.OneCoding σ) :=
  inferInstanceAs (Decidable (∀ p ∈ m.asks σ, ∀ q ∈ m.asks σ, p.1.slot = q.1.slot →
    (σ.component p.1.slot).kind = some .categoric → p.2 = q.2))

lemma Model.told_eq (coded : codings σ m = .ok cs) (e : Effect) (c : Component) :
    m.told σ e c = encodingOf cs e.name >>= (·.flag c.name) := by
  rw [told, coded]
  rfl

lemma Model.asks_effect (mem : e ∈ m.common) (held : c ∈ e.held) (told : m.told σ e c = .ok d) :
    (c, d.truthy) ∈ m.asks σ := by
  refine mem_append_left _ (mem_flatMap.mpr ⟨e, mem, ?_⟩)
  exact mem_filterMap.mpr ⟨c, held, by rw [told]; rfl⟩

lemma Model.asks_expr (mem : g ∈ m.group) (held : c ∈ g.expr.held)
    (spans : groupSpans σ.kinds m g = .ok b) : (c, b) ∈ m.asks σ := by
  refine mem_append_right _ (mem_flatMap.mpr ⟨g, mem, mem_append_left _ ?_⟩)
  exact mem_filterMap.mpr ⟨c, held, by rw [spans]; rfl⟩

lemma Model.asks_factor (mem : g ∈ m.group) (held : c ∈ g.factor.held) :
    (c, true) ∈ m.asks σ := by
  refine mem_append_right _ (mem_flatMap.mpr ⟨g, mem, mem_append_right _ ?_⟩)
  exact mem_map_of_mem held

/-- The coding of every slot, if there is only one. -/
def Model.codingOf (σ : Store) (m : Model) (s : Nat) : Bool :=
  (m.asks σ).any fun p => p.1.slot == s && p.2

lemma Model.OneCoding.eq_codingOf (one : m.OneCoding σ) (asked : (c, b) ∈ m.asks σ)
    (categoric : (σ.component c.slot).kind = some .categoric) : b = m.codingOf σ c.slot := by
  cases found : m.codingOf σ c.slot with
  | true =>
    obtain ⟨p, other, both⟩ := any_eq_true.mp found
    simp only [Bool.and_eq_true, beq_iff_eq] at both
    rw [← both.2]
    exact one (c, b) asked p other both.1.symm categoric
  | false =>
    have none := any_eq_false.mp found (c, b) asked
    simpa using none

lemma Store.kinds_eq (σ : Store) (s : Nat) : σ.kinds s = (σ.component s).kind := by
  rw [Store.kinds, Store.component]
  cases σ.components[s]? <;> rfl

lemma Kept.kinds_eq (kept : Kept View.types except σ τ) : τ.kinds = σ.kinds := by
  funext s
  rw [τ.kinds_eq, σ.kinds_eq, kept.kind]

section Run

variable (known : m.Known f σ)
  (asked : ∀ c b, (c, b) ∈ m.asks σ → (σ.component c.slot).kind = some .categoric → b = flag c.slot)
include known asked

/-- Each effect is coded as it asks for, and leaves current what is so. -/
lemma Model.effects_current (coded : codings σ m = .ok cs)
    (runs : RunsAll (fun e : Effect => do e.setData (← encodingOf cs e.name)) m.common σ τ) :
    Settling f flag m σ τ ∧ ∀ e ∈ m.common, (effect e).Current f flag τ := by
  refine runs.establishes (I := Settling f flag m σ)
    (Q := fun e r => (effect e).Current f flag r) ?_ (Settling.refl σ)
  intro e mem r r' step settling
  obtain ⟨encoding, chosen, step⟩ := ends_lift_bind.mp step
  have known := known.of_kept settling.kept
  have tells : ∀ c ∈ e.held, Tells flag r encoding c := by
    intro c held d told categoric
    have told : m.told σ e c = .ok d := by
      rw [told_eq coded, chosen]
      exact told
    exact asked c _ (asks_effect mem held told) (by rwa [← settling.kept.kind])
  obtain ⟨own, current⟩ := e.current_of_setData known (mem_append_left _ mem) tells step
  have changes : Changes (SlotOf e.held) (· ∈ (effect e).slots) r r' :=
    (e.confined_setData encoding r () r' step).mono (fun _ h => h)
      fun s owns => Option.mem_toList.mpr owns
  refine ⟨settling.trans own, current, fun d among => ?_⟩
  exact known.current_kept (mem_append_left _ (mem_map_of_mem among))
    (mem_append_left _ (mem_map_of_mem mem)) own changes current

/-- So does each group-specific term, for the effects too. -/
lemma Model.groups_current (settling : Settling f flag m σ ρ)
    (effects : ∀ e ∈ m.common, (effect e).Current f flag ρ)
    (runs : RunsAll (fun g => do
      GroupTerm.setData g (.uniform (← Fit.withKinds fun kinds => groupSpans kinds m g)))
      m.group ρ τ) :
    (Settling f flag m σ τ ∧ ∀ e ∈ m.common, (effect e).Current f flag τ) ∧
      ∀ g ∈ m.group, (Part.group g).Current f flag τ := by
  refine runs.establishes
    (I := fun r => Settling f flag m σ r ∧ ∀ e ∈ m.common, (effect e).Current f flag r)
    (Q := fun g r => (Part.group g).Current f flag r) ?_ ⟨settling, effects⟩
  rintro g mem r r' step ⟨settling, effects⟩
  obtain ⟨b, spans, step⟩ := ends_withKinds_bind.mp step
  rw [settling.kept.kinds_eq] at spans
  have known := known.of_kept settling.kept
  have expr : ∀ c ∈ g.expr.held, Tells flag r (.uniform b) c := by
    intro c held d told categoric
    cases told
    exact asked c b (asks_expr mem held spans) (by rwa [← settling.kept.kind])
  have factor : ∀ c ∈ g.factor.held, Tells flag r (.uniform true) c := by
    intro c held d told categoric
    cases told
    exact asked c true (asks_factor mem held) (by rwa [← settling.kept.kind])
  obtain ⟨own, current⟩ := g.current_of_setData known mem expr factor step
  have stays {p : Part} (among : p ∈ m.parts) (before : p.Current f flag r) : p.Current f flag r' :=
    known.current_kept among (mem_append_right _ (mem_map_of_mem mem)) own
      (g.confined_setData _ r () r' step) current before
  refine ⟨⟨settling.trans own, fun e among => ?_⟩, current, fun h among => ?_⟩
  · exact stays (mem_append_left _ (mem_map_of_mem among)) (effects e among)
  · exact stays (mem_append_right _ (mem_map_of_mem among))

/-- If every component that has levels is asked for the coding of its slot, all parts are current once
they have taken their data. -/
lemma Model.current_of_setData (coded : codings σ m = .ok cs) (ends : Ends (m.setData cs) σ () τ) :
    Settling f flag m σ τ ∧ ∀ p ∈ m.parts, p.Current f flag τ := by
  obtain ⟨_, ρ, first, ends⟩ := ends_bind.mp ends
  obtain ⟨_, second, _⟩ := ends_bind_pure.mp ends
  obtain ⟨settling, effects⟩ := effects_current known asked coded
    (runsAll_of_forIn (by simpa only [bind_assoc] using first))
  obtain ⟨⟨settling, effects⟩, groups⟩ := groups_current known asked settling effects
    (runsAll_of_forIn (by simpa only [bind_assoc] using second))
  refine ⟨settling, fun p mem => ?_⟩
  rcases mem_append.mp mem with left | right
  · obtain ⟨e, inside, rfl⟩ := mem_map.mp left
    exact effects e inside
  · obtain ⟨g, inside, rfl⟩ := mem_map.mp right
    exact groups g inside

end Run

end Data

/-! ### Kinds -/

section Kinds

variable {m : Model}

/-- Two stores in which the terms of a model and their components have the same kinds. -/
structure Model.SameKinds (m : Model) (σ τ : Store) : Prop where
  components : ∀ c ∈ m.allComponents, (τ.component c.slot).kind = (σ.component c.slot).kind
  parts : ∀ e ∈ m.common, ∀ s ∈ e.slot?, (τ.part s).kind = (σ.part s).kind

lemma sameListM_congr {α : Type} {same same' : α → α → Except Fault Bool} {xs ys : List α}
    (eq : ∀ x ∈ xs, ∀ y ∈ ys, same x y = same' x y) :
    sameListM same xs ys = sameListM same' xs ys := by
  have go : sameListM.go same xs ys = sameListM.go same' xs ys := by
    induction xs generalizing ys with
    | nil => simp [sameListM.go]
    | cons x xs ih =>
      cases ys with
      | nil => simp [sameListM.go]
      | cons y ys =>
        rw [sameListM.go, sameListM.go, eq x mem_cons_self y mem_cons_self,
          ih fun a left b right => eq a (mem_cons_of_mem x left) b (mem_cons_of_mem y right)]
  rw [sameListM, sameListM, go]

lemma Effect.same_congr {kinds kinds' : Component.Kinds} {a b : Effect}
    (left : ∀ c ∈ a.held, kinds c.slot = kinds' c.slot)
    (right : ∀ c ∈ b.held, kinds c.slot = kinds' c.slot) : a.same kinds b = a.same kinds' b := by
  cases a with
  | intercept | negated => cases b <;> rfl
  | term t =>
    cases b with
    | intercept | negated => rfl
    | term u =>
      refine sameListM_congr fun c inside d among => ?_
      unfold Component.same
      rw [left c inside, right d among]

namespace Model

variable (same : m.SameKinds σ τ)
include same

lemma SameKinds.kinds_eq (mem : c ∈ m.allComponents) : τ.kinds c.slot = σ.kinds c.slot := by
  rw [τ.kinds_eq, σ.kinds_eq, same.components c mem]

lemma SameKinds.groupSpans_eq (mem : g ∈ m.group) :
    groupSpans τ.kinds m g = groupSpans σ.kinds m g := by
  have held {h : GroupTerm} (among : h ∈ m.group) : ∀ c ∈ h.factor.held,
      τ.kinds c.slot = σ.kinds c.slot := fun c inside => same.kinds_eq
    (m.held_subset_allComponents _ (mem_allEffects_of_group among (by simp [GroupTerm.effects])) inside)
  have taken : m.group.mapM (fun t => do
      return (← t.factor.same τ.kinds g.factor) && t.expr.isIntercept) =
      (m.group.mapM fun t => do
        return (← t.factor.same σ.kinds g.factor) && t.expr.isIntercept : Except Fault _) :=
    mapM_congr fun t among => by rw [Effect.same_congr (held among) (held mem)]
  rw [groupSpans, groupSpans, taken]

lemma SameKinds.shape_eq (mem : e ∈ m.common) : shape τ e = shape σ e := by
  cases e with
  | intercept | negated => rfl
  | term t =>
    have joint : kindOf τ (.term t) = kindOf σ (.term t) := same.parts _ mem t.slot rfl
    -- codings look at the kinds of the components and of the term, and at nothing else
    have kinds : t.components.foldl (fun acc c => assign c.name (τ.component c.slot).kind acc) [] =
        t.components.foldl (fun acc c => assign c.name (σ.component c.slot).kind acc) [] :=
      foldl_ext _ _ _ fun acc c inside => by
        rw [same.components c (m.held_subset_allComponents _ (mem_append_left _ mem) inside)]
    unfold shape
    rw [joint]
    cases kindOf σ (.term t) with
    | none => rfl
    | some kind =>
      cases kind with
      | interaction => exact congrArg TermShape.interaction kinds
      | numeric | categoric | offset | proportion | intercept | other => rfl

lemma SameKinds.codings_eq : codings τ m = codings σ m := by
  have shapes : shapes τ m = shapes σ m :=
    foldl_ext _ _ _ fun acc e mem => by rw [same.shape_eq mem]
  rw [codings, codings, codingGroups, codingGroups, shapes]

/-- What the components are told depends on kinds only. -/
lemma SameKinds.asks_eq : m.asks τ = m.asks σ := by
  unfold asks
  congr 1
  · refine flatMap_congr fun e _ => ?_
    simp only [told, same.codings_eq]
  · refine flatMap_congr fun g mem => ?_
    rw [same.groupSpans_eq mem]

end Model

end Kinds

end ModelFormula
