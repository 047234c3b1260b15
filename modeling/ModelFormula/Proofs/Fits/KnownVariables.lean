import ModelFormula.Proofs.Algebra.Resolution

/-!
# Models of variables once their kinds are known

A variable takes the column of its name and is numeric or categoric from then on. Being typed again
for another effect leaves it known.
-/
namespace ModelFormula

open List Effect Operand Component

variable {t : Term} {e : Effect} {except : Nat → Prop} {es es' : List Effect}

def Component.IsVariable (c : Component) : Prop := ∃ n r, c.atom = .variable n r

/-- A variable that has taken the column of its name and is numeric or categoric. -/
def Knows (f : Frame) (σ : Store) (c : Component) : Prop :=
  ∃ x, f.column? c.name = some x ∧ (σ.component c.slot).column = .series x ∧
    ((σ.component c.slot).kind = some .numeric ∧ x.isNumeric = true ∨
      (σ.component c.slot).kind = some .categoric)

/-- The kinds that a term of variables has: several of them interact, and a single one whose column is
not numeric is categoric. -/
structure Term.Admits (f : Frame) (t : Term) (kind : Option Kind) : Prop where
  joint : kind = some .interaction ↔ 1 < t.components.length
  single : ∀ c x, t.components = [c] → f.column? c.name = some x → x.isNumeric = false →
    kind = some .categoric

/-- An intercept that knows its height, or a term of variables that are known. -/
inductive Effect.Known (f : Frame) (σ : Store) : Effect → Prop
  | intercept {slot : Nat} (height : (σ.part slot).height = some f.height) :
      Effect.Known f σ (.intercept slot)
  | negated : Effect.Known f σ .negated
  | term {t : Term} (kind : t.Admits f (σ.part t.slot).kind)
      (knows : ∀ c ∈ t.components, Knows f σ c) : Effect.Known f σ (.term t)

/-- A term that has components, or no term. -/
def Effect.Filled : Effect → Prop
  | .term t => t.components ≠ []
  | _ => True

variable {f : Frame} {σ : Store} {c : Component}

lemma Knows.of_eq (knows : Knows f σ c) (same : τ.component c.slot = σ.component c.slot) :
    Knows f τ c := by
  rw [Knows, same]
  exact knows

lemma Knows.admits (knows : Knows f σ c) (single : t.components = [c]) :
    t.Admits f (σ.component c.slot).kind := by
  obtain ⟨x, found, _, kinds⟩ := knows
  refine ⟨by rcases kinds with ⟨kind, _⟩ | kind <;> simp [kind, single], ?_⟩
  rintro d y shape found' factor
  obtain rfl : c = d := by simpa [single] using shape
  cases found.symm.trans found'
  rcases kinds with ⟨_, numeric⟩ | kind
  · cases factor.symm.trans numeric
  · exact kind

lemma Term.admits (t : Term) : t.Admits f
    (some (if 1 < t.components.length then .interaction else .categoric)) where
  joint := by split <;> simp [*]
  single c _ shape _ _ := by simp [shape]

lemma Effect.Known.knows (known : e.Known f σ) : ∀ c ∈ e.held, Knows f σ c := by
  cases known with
  | intercept | negated => simp [held]
  | term _ knows => exact knows

lemma Effect.Known.of_eq (known : e.Known f σ) (knows : ∀ c ∈ e.held, Knows f τ c)
    (same : ∀ s ∈ e.slot?, τ.part s = σ.part s) : e.Known f τ := by
  cases known with
  | @intercept slot height => exact .intercept (by rw [same slot rfl]; exact height)
  | negated => exact .negated
  | @term t kind _ => exact .term (by rw [same t.slot rfl]; exact kind) knows

lemma Effect.filled_of_setKind (ends : Ends (e.setKind source scope) σ () τ) : e.Filled := by
  cases e with
  | intercept | negated => trivial
  | term t =>
    obtain ⟨_, ρ, _, rest⟩ := ends_bind.mp ends
    intro empty
    simp only [empty] at rest
    exact ends_throw rest

/-! ### What taking data leaves -/

lemma Kept.kind (kept : Kept View.types except σ τ) (s : Nat) :
    (τ.component s).kind = (σ.component s).kind :=
  congrArg (·.1) (kept.component s)

lemma Kept.sameRoles (kept : Kept View.types except σ τ) : SameRoles σ τ :=
  ⟨kept.componentsSize, kept.partsSize, fun s => congrArg (·.2.2) (kept.component s), fun _ _ => rfl⟩

lemma Knows.of_kept (knows : Knows f σ c) (kept : Kept View.types except σ τ) : Knows f τ c := by
  have column : (τ.component c.slot).column = (σ.component c.slot).column :=
    congrArg (·.2.1) (kept.component c.slot)
  rw [Knows, kept.kind, column]
  exact knows

lemma Effect.Known.of_kept (known : e.Known f σ) (kept : Kept View.types except σ τ)
    (own : ∀ s ∈ e.slot?, ¬ except s) : e.Known f τ := by
  have same : ∀ s ∈ e.slot?, View.types.part (τ.part s) = View.types.part (σ.part s) :=
    fun s slot => kept.part s (own s slot)
  cases known with
  | @intercept slot height => exact .intercept ((congrArg (·.2) (same slot rfl)).trans height)
  | negated => exact .negated
  | @term t kind knows =>
    have eq : (τ.part t.slot).kind = (σ.part t.slot).kind := congrArg (·.1) (same t.slot rfl)
    exact .term (by rw [eq]; exact kind) fun c inside => (knows c inside).of_kept kept

/-! ### Components -/

lemma ends_setVariableKind_series (ends : Ends (setVariableKind n (.frame f)) st () st') :
    ∃ x, f.column? n = some x ∧ st'.column = .series x ∧
      (st'.kind = some .numeric ∧ x.isNumeric ∨ st'.kind = some .categoric) := by
  obtain ⟨v, column, ends⟩ := ends_lift_bind.mp ends
  cases found : f.column? n with
  | none => simp [columnOf, found] at column
  | some x =>
    simp only [columnOf, found, Except.ok.injEq] at column
    subst column
    refine ⟨x, rfl, ?_⟩
    dsimp only at ends
    split at ends
    · next numeric =>
      simp only [ends_bind, ends_pure, ends_modify] at ends
      obtain ⟨_, _, ⟨rfl, rfl⟩, rfl⟩ := ends
      exact ⟨rfl, .inl ⟨rfl, numeric⟩⟩
    · split at ends
      · simp only [ends_bind, ends_pure, ends_modify] at ends
        obtain ⟨_, _, ⟨rfl, rfl⟩, rfl⟩ := ends
        exact ⟨rfl, .inr rfl⟩
      · obtain ⟨_, _, thrown, _⟩ := ends_bind.mp ends
        exact (ends_throw thrown).elim

lemma knows_of_setKind (isVariable : c.IsVariable) (bound : c.slot < σ.components.size)
    (ends : Ends (Fit.step c (setKind c.atom (.frame f) scope owner)) σ () τ) :
    Knows f τ c := by
  obtain ⟨n, r, atom⟩ := isVariable
  obtain ⟨st, step, rfl⟩ := ends_step.mp ends
  rw [atom] at step
  have name : c.name = n := by simp [Component.name, atom]
  rw [Knows, Store.putComponent_self _ _ _ bound, name]
  exact ends_setVariableKind_series step

/-- The factors of group-specific terms are made categoric. -/
lemma knows_of_makeCategoric (knows : Knows f σ c) (bound : c.slot < σ.components.size)
    (ends : Ends (Fit.step c (modify ({ · with kind := some .categoric }))) σ () τ) :
    Knows f τ c := by
  obtain ⟨st, step, rfl⟩ := ends_step.mp ends
  obtain rfl := ends_modify.mp step
  obtain ⟨x, found, column, _⟩ := knows
  rw [Knows, Store.putComponent_self _ _ _ bound]
  exact ⟨x, found, column, .inr rfl⟩

section Steps

variable {P : Component → State → Prop} {cs : List Component}

/-- If a step brings something about for its own component, it keeps this for all others: components of
one slot are the same. -/
lemma kept_of_step (coherent : Coherent cs) (mem : c ∈ cs) (own : P c (τ.component c.slot))
    (ends : Ends (Fit.step c action) σ () τ) :
    ∀ d ∈ cs, P d (σ.component d.slot) → P d (τ.component d.slot) := by
  have changes := confined_step (P := fun _ => False) c _ σ () τ ends
  intro d among before
  by_cases same : d.slot = c.slot
  · rw [coherent d among c mem same]
    exact own
  · rw [changes.component _ same]
    exact before

/-- What taking data brings about for each component holds of all of them after the loop. -/
lemma forall_of_setData {all : List Component} {encoding : Encoding} (except : Nat → Prop)
    (coherent : Coherent all) (inside : cs ⊆ all)
    (own : ∀ c ∈ cs, ∀ d r r', encoding.flag c.name = .ok d → Kept View.types except σ r →
      Ends (Fit.step c (setData c.atom d)) r () r' → P c (r'.component c.slot))
    (runs : RunsAll (fun c => do Fit.step c (setData c.atom (← encoding.flag c.name))) cs σ τ) :
    Kept View.types except σ τ ∧ (∀ c ∈ cs, P c (τ.component c.slot)) ∧
      ∀ c ∈ all, P c (σ.component c.slot) → P c (τ.component c.slot) := by
  induction runs with
  | nil => exact ⟨Kept.refl _, by simp, fun _ _ holds => holds⟩
  | @cons c cs σ r τ first _ ih =>
    obtain ⟨mem, inside⟩ := cons_subset.mp inside
    obtain ⟨d, told, step⟩ := ends_lift_bind.mp first
    obtain ⟨here, others⟩ := forall_mem_cons.mp own
    have types : Kept View.types except σ r := (leaves_setData _ _).step c σ () r step
    have new := here d σ r told (Kept.refl σ) step
    obtain ⟨kept, all, stays⟩ := ih inside fun e among d' r' r'' told before =>
      others e among d' r' r'' told (types.trans before)
    refine ⟨types.trans kept, forall_mem_cons.mpr ⟨stays c mem new, all⟩, fun e among before =>
      stays e among (kept_of_step coherent mem new step e among before)⟩

end Steps

/-! ### Effects -/

section Effects

-- effects and group-specific terms with the components that they hold, some of which may be shared
variable {cs : List Component}

lemma knows_kept (apart : Apart es gs cs {} σ) (mem : c ∈ cs) (own : Knows f τ c)
    (ends : Ends (Fit.step c action) σ () τ) : ∀ d ∈ cs, Knows f σ d → Knows f τ d :=
  kept_of_step (P := fun c st => ∃ x, f.column? c.name = some x ∧ st.column = .series x ∧
    (st.kind = some .numeric ∧ x.isNumeric ∨ st.kind = some .categoric))
    apart.coherent mem own ends

lemma setKind_knows (plain : ∀ c ∈ cs, c.IsVariable) (mem : c ∈ cs)
    (ends : Ends (Fit.step c (setKind c.atom (.frame f) scope owner)) σ () τ)
    (apart : Apart es gs cs {} σ) :
    Apart es gs cs {} τ ∧ Knows f τ c ∧ ∀ d ∈ cs, Knows f σ d → Knows f τ d := by
  have own := knows_of_setKind (plain c mem) (apart.components c mem).2.bound ends
  exact ⟨apart.refit ((leaves_setKind _ _ _ _).step c σ () τ ends), own,
    knows_kept apart mem own ends⟩

lemma makeCategoric_knows (mem : c ∈ cs)
    (ends : Ends (Fit.step c (modify ({ · with kind := some .categoric }))) σ () τ)
    (apart : Apart es gs cs {} σ) (knows : Knows f σ c) :
    Apart es gs cs {} τ ∧ Knows f τ c ∧ ∀ d ∈ cs, Knows f σ d → Knows f τ d := by
  have own := knows_of_makeCategoric knows (apart.components c mem).2.bound ends
  exact ⟨apart.refit ((leaves_modify fun _ => by rfl).step c σ () τ ends), own,
    knows_kept apart mem own ends⟩

/-- Where the components of a term are known, so is the term once its part has a kind. -/
lemma known_of_setPart {kind : Option Kind} (apart : Apart es gs cs {} σ) (mem : .term t ∈ es)
    (joint : t.Admits f kind) (knows : ∀ c ∈ t.components, Knows f σ c)
    (ends : Ends (Fit.setPart t.slot ({ · with kind })) σ () τ) :
    Apart es gs cs {} τ ∧ (term t).Known f τ ∧ ∀ d ∈ es, d.Known f σ → d.Known f τ := by
  have changes := confined_setPart (C := fun _ => False) t.slot _ σ () τ ends
  have same : SameRoles σ τ := keeping_setPart (.inr fun _ => by rfl) σ () τ ends
  have bound := (apart.parts _ mem t.slot rfl).2
  have kept (c : Component) (before : Knows f σ c) : Knows f τ c :=
    before.of_eq (changes.component _ id)
  obtain rfl := ends_setPart.mp ends
  have own : (term t).Known f (σ.putPart t.slot { σ.part t.slot with kind }) := by
    refine .term ?_ fun c inside => kept c (knows c inside)
    rw [Store.putPart_self _ _ _ bound]
    exact joint
  refine ⟨apart.refit same, own, fun d among before => ?_⟩
  by_cases eq : d = .term t
  · rw [eq]
    exact own
  · refine before.of_eq (fun c held => kept c (before.knows c held)) fun s slot => ?_
    exact changes.part s fun owns =>
      eq (apart.distinct d among _ mem s slot (by simp [slot?, owns]))

variable (held : ∀ e ∈ es, e.held ⊆ cs) (plain : ∀ c ∈ cs, c.IsVariable)
include held

/-- The loop over the components of a term leaves them known, and with them all effects that were
known. -/
lemma known_of_loop (mem : .term t ∈ es) (apart : Apart es gs cs {} σ)
    (step : ∀ c ∈ cs, ∀ ρ ρ', Ends (action c) ρ () ρ' → Apart es gs cs {} ρ →
      Apart es gs cs {} ρ' ∧ Knows f ρ' c ∧ ∀ d ∈ cs, Knows f ρ d → Knows f ρ' d)
    (changes : Changes (SlotOf t.components) (fun _ => False) σ τ)
    (runs : RunsAll action t.components σ τ) :
    Apart es gs cs {} τ ∧ (∀ c ∈ t.components, Knows f τ c) ∧
      ∀ d ∈ es, d.Known f σ → d.Known f τ := by
  obtain ⟨apart, own, kept⟩ := runs.establishes_of_subset (I := Apart es gs cs {})
    (Q := fun c σ => Knows f σ c) (held _ mem) step apart
  refine ⟨apart, own, fun d among before => ?_⟩
  exact before.of_eq (fun c inside => kept c (held d among inside) (before.knows c inside))
    fun s _ => changes.part s id

include plain

lemma Term.known_of_setKind (mem : .term t ∈ es)
    (apart : Apart es gs cs {} σ) (ends : Ends (t.setKind (.frame f) scope) σ () τ) :
    Apart es gs cs {} τ ∧ (term t).Known f τ ∧ ∀ d ∈ es, d.Known f σ → d.Known f τ := by
  obtain ⟨_, ρ, loop, rest⟩ := ends_bind.mp ends
  obtain ⟨apart, knows, kept⟩ := known_of_loop held mem apart
    (fun c inside _ _ step apart => setKind_knows plain inside step apart)
    (confined_forIn_step t.components _ σ _ ρ loop) (runsAll_of_forIn loop)
  -- what follows the loop gives the part its kind
  have finish {kind : Option Kind} (joint : t.Admits f kind)
      (last : Ends (Fit.setPart t.slot ({ · with kind })) ρ () τ) : Apart es gs cs {} τ ∧
        (term t).Known f τ ∧ ∀ d ∈ es, d.Known f σ → d.Known f τ := by
    obtain ⟨apart, own, others⟩ := known_of_setPart apart mem joint knows last
    exact ⟨apart, own, fun d among before => others d among (kept d among before)⟩
  split at rest
  next => exact (ends_throw rest).elim
  next c single =>
    simp only [ends_bind, ends_get] at rest
    obtain ⟨_, _, ⟨rfl, rfl⟩, last⟩ := rest
    exact finish ((knows c (by simp [single])).admits single) last
  next none single =>
    have several : 1 < t.components.length := by
      rcases shape : t.components with _ | ⟨c, _ | ⟨d, rest⟩⟩
      · exact absurd shape none
      · exact absurd shape (single c)
      · simp
    exact finish (by simpa [several] using t.admits (f := f)) rest

lemma Effect.known_of_setKind (mem : e ∈ es)
    (apart : Apart es gs cs {} σ) (ends : Ends (e.setKind (.frame f) scope) σ () τ) :
    Apart es gs cs {} τ ∧ e.Known f τ ∧ ∀ d ∈ es, d.Known f σ → d.Known f τ := by
  cases e with
  | negated =>
    obtain ⟨_, rfl⟩ := ends_pure.mp ends
    exact ⟨apart, .negated, fun _ _ before => before⟩
  | intercept slot =>
    have changes := (intercept slot).confined_setKind (.frame f) scope σ () τ ends
    have same : SameRoles σ τ := (intercept slot).keeping_setKind _ _ σ () τ ends
    obtain ⟨n, height, rest⟩ := ends_lift_bind.mp ends
    obtain rfl := ends_setPart.mp rest
    cases height
    have own : (intercept slot).Known f
        (σ.putPart slot { σ.part slot with height := some f.height }) := by
      refine .intercept ?_
      rw [Store.putPart_self _ _ _ (apart.parts _ mem slot rfl).2]
    refine ⟨apart.refit same, own, fun d among before => ?_⟩
    -- the part is written for no other effect
    by_cases eq : d = .intercept slot
    · rw [eq]
      exact own
    · refine before.of_eq (fun c inside => (before.knows c inside).of_eq rfl) fun s slot => ?_
      exact changes.part s fun owns => eq (apart.distinct d among _ mem s slot owns)
  | term t => exact t.known_of_setKind held plain mem apart ends

lemma GroupTerm.known_of_setKind {g : GroupTerm} (expr : g.expr ∈ es)
    (factor : g.factor ∈ es) (apart : Apart es gs cs {} σ)
    (ends : Ends (g.setKind (.frame f) scope) σ () τ) :
    Apart es gs cs {} τ ∧ (∀ e ∈ g.effects, e.Known f τ) ∧ ∀ d ∈ es, d.Known f σ → d.Known f τ := by
  obtain ⟨u, _, _, shape, runs, changes, typed, ends⟩ := setKind_cases ends
  rw [shape] at factor
  obtain ⟨apart, knows, kept⟩ := known_of_loop held factor apart (fun c inside r r' step apart => by
      obtain ⟨_, r'', first, second⟩ := ends_bind.mp step
      obtain ⟨apart, own, kept⟩ := setKind_knows plain inside first apart
      obtain ⟨apart, own, kept'⟩ := makeCategoric_knows inside second apart own
      exact ⟨apart, own, fun d among before => kept' d among (kept d among before)⟩) changes runs
  obtain ⟨apart, own, kept'⟩ := known_of_setPart apart factor u.admits knows typed
  obtain ⟨apart, own', kept''⟩ := g.expr.known_of_setKind held plain expr apart ends
  refine ⟨apart, ?_, fun d among before => kept'' d among (kept' d among (kept d among before))⟩
  simpa [effects, shape, own'] using kept'' _ factor own

end Effects

/-! ### Models -/

namespace Model

variable {m m' : Model}

/-- The common effects and those that group-specific terms are made of. -/
def allEffects (m : Model) : List Effect := m.common ++ m.group.flatMap GroupTerm.effects

/-- The components of all terms but the response. -/
def allComponents (m : Model) : List Component :=
  m.common.flatMap held ++ m.group.flatMap GroupTerm.held

lemma mem_allComponents : c ∈ m.allComponents ↔ ∃ e ∈ m.allEffects, c ∈ e.held := by
  simp only [allComponents, allEffects, mem_append, mem_flatMap, GroupTerm.held,
    GroupTerm.effects, mem_cons, not_mem_nil, or_false]
  grind

lemma held_subset_allComponents (m : Model) : ∀ e ∈ m.allEffects, e.held ⊆ m.allComponents :=
  fun e mem _ held => mem_allComponents.mpr ⟨e, mem, held⟩

lemma mem_allEffects_of_group (mem : g ∈ m.group) (inside : e ∈ g.effects) : e ∈ m.allEffects :=
  mem_append_right _ (mem_flatMap.mpr ⟨g, mem, inside⟩)

/-- A separate model, of which the given effects consist of variables and are known. All common ones
are among them, and none is an empty term. -/
structure KnownIn (f : Frame) (es : List Effect) (σ : Store) (m : Model) : Prop where
  separate : (model m).pool.Separate {} σ
  common : m.common ⊆ es
  listed : es ⊆ m.allEffects
  plain : ∀ e ∈ es, ∀ c ∈ e.held, c.IsVariable
  effects : ∀ e ∈ es, e.Known f σ
  filled : ∀ e ∈ m.common, e.Filled

/-- All effects of the model are known. -/
abbrev Known (f : Frame) (σ : Store) (m : Model) : Prop := m.KnownIn f m.allEffects σ

lemma Known.plain_of_mem (known : m.Known f σ) (mem : c ∈ m.allComponents) : c.IsVariable := by
  obtain ⟨e, inside, held⟩ := mem_allComponents.mp mem
  exact known.plain e inside c held

/-- Some of the effects with the components that they hold. -/
lemma apart_of_separate (separate : (model m).pool.Separate {} σ)
    (listed : es ⊆ m.allEffects) : Apart es m.group (es.flatMap held) {} σ := by
  refine separate.all.mono listed (Subset.refl _) fun c mem => ?_
  obtain ⟨e, inside, held⟩ := mem_flatMap.mp mem
  exact m.held_subset_allComponents e (listed inside) held

lemma setCommon_known (separate : (model m).pool.Separate {} σ)
    (common : m.common ⊆ es) (listed : es ⊆ m.allEffects)
    (plain : ∀ e ∈ es, ∀ c ∈ e.held, c.IsVariable)
    (runs : RunsAll (fun e => e.setKind (.frame f) scope) m.common σ τ) :
    ∀ e ∈ m.common, e.Known f τ ∧ e.Filled := by
  refine (runs.establishes_of_subset (I := Apart es m.group (es.flatMap held) {})
    (Q := fun e σ => e.Known f σ ∧ e.Filled) common (fun e mem _ _ step apart => ?_)
    (apart_of_separate separate listed)).2.1
  obtain ⟨apart, own, kept⟩ := e.known_of_setKind
    (fun d among c held => mem_flatMap.mpr ⟨d, among, held⟩)
    (forall_mem_flatMap.mpr plain) mem apart step
  exact ⟨apart, ⟨own, e.filled_of_setKind step⟩, fun d among before =>
    ⟨kept d among before.1, before.2⟩⟩

lemma setKinds_known (separate : (model m).pool.Separate {} σ)
    (plain : ∀ c ∈ m.allComponents, c.IsVariable)
    (ends : Ends (m.setKinds (.frame f) scope) σ () τ) : m.Known f τ := by
  have held := m.held_subset_allComponents
  have plain' : ∀ e ∈ m.allEffects, ∀ c ∈ e.held, c.IsVariable :=
    fun e mem c inside => plain c (held e mem inside)
  obtain ⟨_, ρ, first, ends⟩ := ends_bind.mp ends
  obtain ⟨_, second, _⟩ := ends_bind_pure.mp ends
  have roles := relates_forIn m.common (fun e _ => e.keeping_setKind _ _) σ _ ρ first
  have roles' := relates_forIn m.group (fun g _ => g.keeping_setKind _ _) ρ _ _ second
  have common := setCommon_known separate (subset_append_left _ _) (Subset.refl _) plain'
    (runsAll_of_forIn first)
  -- the common effects stay known while the group-specific terms are typed
  obtain ⟨⟨_, known⟩, group⟩ := (runsAll_of_forIn second).establishes
    (I := fun σ => Apart m.allEffects m.group m.allComponents {} σ ∧ ∀ e ∈ m.common, e.Known f σ)
    (Q := fun g σ => ∀ e ∈ g.effects, e.Known f σ) (fun g mem r r' step ⟨apart, common⟩ => by
      obtain ⟨apart, own, kept⟩ := g.known_of_setKind held plain
        (mem_allEffects_of_group mem (by simp [GroupTerm.effects]))
        (mem_allEffects_of_group mem (by simp [GroupTerm.effects])) apart step
      refine ⟨⟨apart, fun e among => kept e (mem_append_left _ among) (common e among)⟩, own, ?_⟩
      exact fun h among before e inside => kept e (mem_allEffects_of_group among inside)
        (before e inside)) ⟨(separate.refit roles).all, fun e mem => (common e mem).1⟩
  refine ⟨(separate.refit roles).refit roles', subset_append_left _ _, Subset.refl _, plain',
    fun e mem => ?_, fun e mem => (common e mem).2⟩
  rcases mem_append.mp mem with left | right
  · exact known e left
  · obtain ⟨g, among, inside⟩ := mem_flatMap.mp right
    exact group g among e inside

lemma allEffects_subset (common : m'.common ⊆ m.common) (group : m'.group = m.group) :
    m'.allEffects ⊆ m.allEffects := by
  rw [allEffects, group]
  exact Pool.append_subset_append common (Subset.refl _)

/-- Some of the common effects with some of those that are known. -/
lemma KnownIn.mono (known : m.KnownIn f es σ) (common : m'.common ⊆ m.common)
    (group : m'.group = m.group) (response : m'.response = m.response) (fewer : es' ⊆ es)
    (common' : m'.common ⊆ es') (listed : es' ⊆ m'.allEffects) : m'.KnownIn f es' σ where
  separate := by
    have inside := in_pool (.model m)
    refine known.separate.mono (Operand.In.within ⟨?_, ?_, ?_⟩)
    · exact Subset.trans common inside.effects
    · intro g mem
      exact inside.groups g (by simpa [groups, group] using mem)
    · intro t given
      exact inside.response t (by simpa [response?, response] using given)
  common := common'
  listed := listed
  plain e mem := known.plain e (fewer mem)
  effects e mem := known.effects e (fewer mem)
  filled e mem := known.filled e (common mem)

lemma Known.mono (known : m.Known f σ) (common : m'.common ⊆ m.common)
    (group : m'.group = m.group) (response : m'.response = m.response) : m'.Known f σ :=
  KnownIn.mono known common group response (allEffects_subset common group)
    (subset_append_left _ _) (Subset.refl _)

/-! ### Terms that are added -/

lemma extraComponents_subset (σ : Store) (t : Term) (coding : Coding.Flags Literal) :
    extraComponents σ t coding ⊆ t.components := by
  intro c mem
  rcases mem_append.mp mem with mentioned | numeric
  · obtain ⟨d, _, found⟩ := mem_filterMap.mp mentioned
    exact mem_of_find?_eq_some found
  · exact mem_of_mem_filter numeric

/-- An added term has atoms of the given components, in the same order. -/
lemma keeps_extraTerm (held : cs ⊆ p.components) :
    Keeps {} p (do Fit.newTerm (← cs.mapM Fit.copyComponent)) fun q u =>
      .term u ∈ q.effects ∧ (u.components.map (·.atom)).Sublist (cs.map (·.atom)) := by
  refine (keeps_copies held).bind fun q copies _ made => ?_
  refine (keeps_newTerm made.1).imp fun r u _ added => ⟨added.1, ?_⟩
  rw [← made.2]
  exact added.2.map _

lemma KnownIn.of_extends (known : m.KnownIn f es σ) (grows : Extends σ τ) :
    ∀ e ∈ es, e.Known f τ := by
  have apart := apart_of_separate known.separate known.listed
  intro e mem
  have before := known.effects e mem
  refine before.of_eq (fun c held => ?_) fun s slot => grows.part s (apart.parts e mem s slot).2
  have bound := (apart.components c (mem_flatMap.mpr ⟨e, mem, held⟩)).2.bound
  exact (before.knows c held).of_eq (grows.component _ bound)

lemma extraTerm_known (known : m.KnownIn f es σ) (mem : .term t ∈ m.common)
    (ends : Ends (extraTerm t coding (.frame f) scope) σ u τ) :
    KnownIn f (.term u :: es) τ { m with common := .term u :: m.common } ∧
      (u.components.map (·.atom)).Sublist ((extraComponents σ t coding).map (·.atom)) := by
  have ends := ends_get_bind.mp ends
  obtain ⟨copies, ρ', copied, ends⟩ := ends_bind.mp ends
  obtain ⟨v, ρ, made, ends⟩ := ends_bind.mp ends
  obtain ⟨_, kinds, rfl⟩ := ends_bind_pure.mp ends
  have subset := extraComponents_subset σ t coding
  -- the copies and the term are new, so everything at hand stays as it was
  obtain ⟨grows, q, within, separate, added, atoms⟩ :=
    keeps_extraTerm (Subset.trans subset ((model m).pool.held _ mem)) σ v ρ
      known.separate (ends_bind.mpr ⟨copies, ρ', copied, made⟩)
  have before := (in_pool (.model m)).mono within
  have inside : (model { m with common := .term v :: m.common }).In q :=
    ⟨cons_subset.mpr ⟨added, before.effects⟩, before.groups, before.response⟩
  have separate := separate.mono inside.within
  -- a copy is a variable because its atom is that of one
  have plain : ∀ e ∈ .term v :: es, ∀ c ∈ e.held, c.IsVariable := by
    refine forall_mem_cons.mpr ⟨fun c new => ?_, known.plain⟩
    obtain ⟨d, original, same⟩ := mem_map.mp (atoms.subset (mem_map_of_mem new))
    obtain ⟨n, r, atom⟩ := known.plain _ (known.common mem) d (subset original)
    exact ⟨n, r, by rw [← same, atom]⟩
  have listed : .term v :: es ⊆ allEffects { m with common := .term v :: m.common } :=
    cons_subset_cons _ known.listed
  obtain ⟨_, own, kept⟩ := (term v).known_of_setKind
    (fun d among c held => mem_flatMap.mpr ⟨d, among, held⟩)
    (forall_mem_flatMap.mpr plain) mem_cons_self (apart_of_separate separate listed) kinds
  refine ⟨⟨separate.refit ((term v).keeping_setKind _ _ ρ () _ kinds),
    cons_subset_cons _ known.common, listed, plain, forall_mem_cons.mpr ⟨own, ?_⟩,
    forall_mem_cons.mpr ⟨(term v).filled_of_setKind kinds, known.filled⟩⟩, atoms⟩
  exact fun e old => kept e (mem_cons_of_mem _ old) (known.of_extends grows e old)

/-- A new effect stands in front of one that equals the other. -/
lemma insertBefore_inv (done : insertBefore kinds new other es = .ok es') :
    ∃ pre e post, es = pre ++ e :: post ∧ es' = pre ++ new :: e :: post ∧
      e.same kinds other = .ok true := by
  induction es generalizing es' with
  | nil => cases done
  | cons e es ih =>
    obtain ⟨same, compared, done⟩ := bind_eq_ok.mp done
    split at done
    next eq =>
      cases done
      exact ⟨[], e, es, rfl, rfl, by rw [compared, eq]⟩
    next =>
      obtain ⟨rest, inserted, done⟩ := bind_eq_ok.mp done
      cases done
      obtain ⟨pre, d, post, rfl, rfl, eq⟩ := ih inserted
      exact ⟨e :: pre, d, post, rfl, rfl, eq⟩

lemma insertBefore_subset (done : insertBefore kinds new other es = .ok es') :
    es ⊆ es' ∧ es' ⊆ new :: es := by
  obtain ⟨pre, e, post, rfl, rfl, -⟩ := insertBefore_inv done
  constructor
  · intro d mem
    simp only [mem_append, mem_cons] at mem ⊢
    tauto
  · intro d mem
    simp only [mem_append, mem_cons] at mem ⊢
    tauto

/-- Adding the terms that the codings need keeps a model known; its group-specific terms and its
response are the same. -/
lemma addExtraTerms_known {codings : Codings} (known : m.Known f σ)
    (ends : Ends (m.addExtraTerms codings (.frame f) scope) σ m' τ) :
    m'.Known f τ ∧ m.common ⊆ m'.common ∧ m'.group = m.group ∧ m'.response = m.response := by
  refine invariant_of_foldlM (I := fun n σ => n.Known f σ ∧ m.common ⊆ n.common ∧
    n.group = m.group ∧ n.response = m.response) ends ?_ ⟨known, Subset.refl _, rfl, rfl⟩
  intro e mem n n' σ τ step invariant
  split at step
  · refine invariant_of_foldlM (I := fun n σ => n.Known f σ ∧ m.common ⊆ n.common ∧
      n.group = m.group ∧ n.response = m.response) step ?_ invariant
    -- every further coding of the effect adds one term in front of it
    rintro coding _ n n' σ τ step ⟨known, keeps, group, response⟩
    cases e with
    | term t =>
      obtain ⟨u, ρ, extra, step⟩ := ends_bind.mp step
      obtain ⟨es, done, step⟩ := ends_withKinds_bind.mp step
      obtain ⟨rfl, rfl⟩ := ends_pure.mp step
      obtain ⟨kept, old⟩ := insertBefore_subset done
      have grown : Known f _ { n with common := .term u :: n.common } :=
        (extraTerm_known known (keeps mem) extra).1
      exact ⟨grown.mono old rfl rfl, Subset.trans keeps kept, group, response⟩
    | intercept | negated => exact (ends_throw step).elim
  · obtain ⟨rfl, rfl⟩ := ends_pure.mp step
    exact invariant

end Model

end ModelFormula
