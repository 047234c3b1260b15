import ModelFormula.Design
import ModelFormula.Proofs.Algebra.Run

/-!
# What fitting changes

Fitting an effect changes the states of its own components and its own part, and nothing else in the
store. The rules follow the way in which the computations are put together.
-/
namespace ModelFormula

open List Fit

variable {α β : Type}
variable {σ τ : Store} {P : Nat → Prop} {e : Effect}

namespace Effect

/-- The components that an effect holds. -/
def held : Effect → List Component
  | .term t => t.components
  | _ => []

/-- The slot of the part that an effect is. -/
def slot? : Effect → Option Nat
  | .intercept slot => some slot
  | .negated => none
  | .term t => some t.slot

end Effect

namespace GroupTerm

def held (g : GroupTerm) : List Component := g.expr.held ++ g.factor.held

/-- The slots of the part that a group-specific term is, and of its own parts. -/
def slots (g : GroupTerm) : List Nat := g.slot :: (g.expr.slot?.toList ++ g.factor.slot?.toList)

end GroupTerm

/-- Two stores that differ at most in the given slots. -/
structure Changes (components parts : Nat → Prop) (σ τ : Store) : Prop where
  componentsSize : τ.components.size = σ.components.size
  partsSize : τ.parts.size = σ.parts.size
  component : ∀ s, ¬ components s → τ.component s = σ.component s
  part : ∀ s, ¬ parts s → τ.part s = σ.part s

/-- A computation that changes at most the given slots when it returns. -/
def Confined (components parts : Nat → Prop) (x : Fit α) : Prop :=
  Relates (Changes components parts) x

section Rules

variable {C D : Nat → Prop} {Q : Nat → Prop}

lemma Changes.refl (σ : Store) : Changes C P σ σ := ⟨rfl, rfl, fun _ _ => rfl, fun _ _ => rfl⟩

lemma Changes.trans (first : Changes C P σ ρ) (second : Changes C P ρ τ) : Changes C P σ τ where
  componentsSize := second.componentsSize.trans first.componentsSize
  partsSize := second.partsSize.trans first.partsSize
  component s outside := (second.component s outside).trans (first.component s outside)
  part s outside := (second.part s outside).trans (first.part s outside)

instance : IsPreorder Store (Changes C P) where
  refl := Changes.refl
  trans _ _ _ := Changes.trans

lemma Changes.mono (changes : Changes C P σ τ) (components : ∀ s, C s → D s)
    (parts : ∀ s, P s → Q s) : Changes D Q σ τ where
  componentsSize := changes.componentsSize
  partsSize := changes.partsSize
  component s outside := changes.component s (mt (components s) outside)
  part s outside := changes.part s (mt (parts s) outside)

lemma Confined.mono {x : Fit α} (confined : Confined C P x) (components : ∀ s, C s → D s)
    (parts : ∀ s, P s → Q s) : Confined D Q x :=
  fun σ a τ ends => (confined σ a τ ends).mono components parts

end Rules

/-! ### Slots of the store -/

namespace Store

def putComponent (σ : Store) (slot : Nat) (st : Component.State) : Store :=
  { σ with components := σ.components.setIfInBounds slot st }

def putPart (σ : Store) (slot : Nat) (st : Part.State) : Store :=
  { σ with parts := σ.parts.setIfInBounds slot st }

variable (σ : Store) (slot s : Nat)

lemma putComponent_self (st : Component.State) (bound : slot < σ.components.size) :
    (σ.putComponent slot st).component slot = st := by
  simp [putComponent, component, bound]

lemma putComponent_of_ne (st : Component.State) (other : s ≠ slot) :
    (σ.putComponent slot st).component s = σ.component s := by
  simp [putComponent, component, Ne.symm other]

lemma putPart_self (st : Part.State) (bound : slot < σ.parts.size) :
    (σ.putPart slot st).part slot = st := by
  simp [putPart, part, bound]

lemma putPart_of_ne (st : Part.State) (other : s ≠ slot) :
    (σ.putPart slot st).part s = σ.part s := by
  simp [putPart, part, Ne.symm other]

end Store

@[simp]
lemma ends_withStore {f : Store → Except Fault α} :
    Ends (withStore f) σ a τ ↔ f σ = .ok a ∧ σ = τ := by
  have runs : outcome (withStore f) σ = (f σ, σ) := rfl
  simp [Ends, runs]

@[simp]
lemma ends_withKinds {f : Component.Kinds → Except Fault α} :
    Ends (withKinds f) σ a τ ↔ f σ.kinds = .ok a ∧ σ = τ :=
  ends_withStore

lemma ends_withStore_bind {f : Store → Except Fault β} {g : β → Fit α} :
    Ends (withStore f >>= g) σ a τ ↔ ∃ b, f σ = .ok b ∧ Ends (g b) σ a τ := by
  simp [ends_bind, and_assoc]

lemma ends_withKinds_bind {f : Component.Kinds → Except Fault β} {g : β → Fit α} :
    Ends (withKinds f >>= g) σ a τ ↔ ∃ b, f σ.kinds = .ok b ∧ Ends (g b) σ a τ :=
  ends_withStore_bind

lemma relates_withStore [IsPreorder Store R] (f : Store → Except Fault α) :
    Relates R (withStore f) :=
  relates_of_steady fun _ _ _ ends => (ends_withStore.mp ends).2

/-- A step of a component that returns has run on its state and left the new one. -/
lemma ends_step {action : Component.Step α} : Ends (step c action) σ a τ ↔
      ∃ st, Ends action (σ.component c.slot) a st ∧ σ.putComponent c.slot st = τ := by
  have runs : outcome (step c action) σ = ((outcome action (σ.component c.slot)).1,
      σ.putComponent c.slot (outcome action (σ.component c.slot)).2) := rfl
  simp only [Ends, runs]
  cases outcome action (σ.component c.slot) with
  | mk result st => simp [and_assoc]

lemma ends_setPart :
    Ends (setPart slot change) σ u τ ↔ σ.putPart slot (change (σ.part slot)) = τ :=
  ends_modify

lemma confined_step (c : Component) (action : Component.Step α) :
    Confined (· = c.slot) P (step c action) := by
  intro σ a τ ends
  obtain ⟨st, _, rfl⟩ := ends_step.mp ends
  exact ⟨by simp [Store.putComponent], rfl, fun s => σ.putComponent_of_ne c.slot s st,
    fun _ _ => rfl⟩

lemma confined_setPart (slot : Nat) (change : Part.State → Part.State) :
    Confined C (· = slot) (setPart slot change) := by
  intro σ a τ ends
  obtain rfl := ends_setPart.mp ends
  exact ⟨rfl, by simp [Store.putPart], fun _ _ => rfl, fun s => σ.putPart_of_ne slot s _⟩

/-! ### Effects -/

/-- The slots of some components. -/
def SlotOf (cs : List Component) (s : Nat) : Prop := ∃ c ∈ cs, c.slot = s

lemma confined_step_of_mem (mem : c ∈ cs) (action : Component.Step α) :
    Confined (SlotOf cs) P (step c action) :=
  (confined_step c action).mono (fun _ eq => ⟨c, mem, eq.symm⟩) fun _ h => h

lemma confined_setPart_of_mem (own : slots slot) (change : Part.State → Part.State) :
    Confined C slots (setPart slot change) :=
  (confined_setPart slot change).mono (fun _ h => h) fun _ eq => eq ▸ own

lemma confined_forIn_step (cs : List Component) (action : Component → Component.Step PUnit) :
    Confined (SlotOf cs) P (forIn cs PUnit.unit fun c _ => do
      step c (action c)
      pure (.yield PUnit.unit)) :=
  relates_forIn cs fun c mem => confined_step_of_mem mem (action c)

section Walks

variable {R : Store → Store → Prop} [IsPreorder Store R] {encoding : Encoding}

lemma relates_forIn_setData {cs : List Component}
    (step : ∀ c ∈ cs, ∀ flag, Relates R (step c (Component.setData c.atom flag))) :
    Relates R (forIn cs PUnit.unit fun c _ => do
      Fit.step c (Component.setData c.atom (← encoding.flag c.name))
      pure (.yield PUnit.unit)) := by
  have loop : Relates R (forIn cs PUnit.unit fun c _ => do
      (do Fit.step c (Component.setData c.atom (← encoding.flag c.name)))
      pure (.yield PUnit.unit)) :=
    relates_forIn cs fun c mem => (relates_lift _).bind fun _ => step c mem _
  simpa only [bind_assoc] using loop

/-- What relates all steps of the components and of the part of an effect relates typing it. -/
lemma Effect.relates_setKind
    (step : ∀ c ∈ e.held, Relates R (step c (Component.setKind c.atom source scope)))
    (part : ∀ s ∈ e.slot?, ∀ change, Relates R (setPart s change)) :
    Relates R (e.setKind source scope) := by
  cases e with
  | intercept slot => exact (relates_lift _).bind fun _ => part slot rfl _
  | negated => exact relates_pure _
  | term t =>
    refine (relates_forIn t.components step).bind fun _ => ?_
    split
    · exact relates_throw _
    · exact relates_get.bind fun _ => part t.slot rfl _
    · exact part t.slot rfl _

/-- And so does taking its data, of which only the data themselves are changed in the part. -/
lemma Effect.relates_setData
    (step : ∀ c ∈ e.held, ∀ flag, Relates R (Fit.step c (Component.setData c.atom flag)))
    (part : ∀ s ∈ e.slot?, ∀ value : Part.State → Option Block,
      Relates R (Fit.setPart s fun st => { st with data := value st })) :
    Relates R (e.setData encoding) := by
  cases e with
  | intercept slot => exact relates_get.bind fun _ => part slot rfl _
  | negated => exact relates_pure _
  | term t =>
    refine (relates_forIn_setData step).bind fun _ => relates_get.bind fun σ => ?_
    split
    · exact (relates_lift _).bind fun _ => (relates_lift _).bind fun _ => part t.slot rfl _
    · split
      · exact relates_throw _
      · exact part t.slot rfl _

lemma GroupTerm.relates_setKind {g : GroupTerm}
    (step : ∀ c ∈ g.held, ∀ owner, Relates R (step c (Component.setKind c.atom source scope owner)))
    (make : ∀ c ∈ g.held, Relates R (Fit.step c (modify ({ · with kind := some .categoric }))))
    (part : ∀ s ∈ g.slots, ∀ change, Relates R (setPart s change)) :
    Relates R (g.setKind source scope) := by
  unfold setKind
  split
  next factor shape =>
    have among : ∀ c ∈ factor.components, c ∈ g.held := fun c mem =>
      mem_append_right _ (by rw [shape]; exact mem)
    have steps : Relates R (forIn factor.components PUnit.unit fun c _ => do
        (do Fit.step c (Component.setKind c.atom source scope "GroupSpecificTerm")
            Fit.step c (modify ({ · with kind := some .categoric })))
        pure (.yield PUnit.unit)) :=
      relates_forIn factor.components fun c mem =>
        (step c (among c mem) _).bind fun _ => make c (among c mem)
    simp only [bind_assoc] at steps
    refine steps.bind fun _ => (part _ (by simp [slots, shape, Effect.slot?]) _).bind fun _ => ?_
    exact Effect.relates_setKind (fun c mem => step c (mem_append_left _ mem) _)
      fun s slot => part s (by simp_all [slots])
  next => exact relates_throw _

lemma GroupTerm.relates_setData {g : GroupTerm}
    (step : ∀ c ∈ g.held, ∀ flag, Relates R (step c (Component.setData c.atom flag)))
    (part : ∀ s ∈ g.slots, ∀ value : Part.State → Option Block,
      Relates R (setPart s fun st => { st with data := value st }))
    (own : ∀ change, Relates R (setPart g.slot change)) :
    Relates R (g.setData encoding) := by
  refine (Effect.relates_setData (fun c mem => step c (mem_append_left _ mem))
    fun s slot => part s (by simp_all [slots])).bind fun _ => ?_
  refine (Effect.relates_setData (fun c mem => step c (mem_append_right _ mem))
    fun s slot => part s (by simp_all [slots])).bind fun _ => ?_
  cases g.factor with
  | intercept | negated => exact relates_throw _
  | term t =>
    refine (relates_withStore _).bind fun _ => (own _).bind fun _ => ?_
    refine (relates_withStore _).bind fun _ => (relates_withStore _).bind fun _ => ?_
    refine (relates_lift _).bind fun _ => (relates_lift _).bind fun _ => ?_
    exact (relates_lift _).bind fun _ => relates_get.bind fun _ => own _

end Walks

namespace Term

/-- Taking data, the components take their numbers one after the other. Then the part of an interaction
has their product, and that of another term the numbers of the first component. -/
lemma setData_cases {t : Term} (ends : Ends (t.setData encoding) σ () τ) : ∃ ρ data,
      RunsAll (fun c => do step c (Component.setData c.atom (← encoding.flag c.name)))
        t.components σ ρ ∧ Changes (SlotOf t.components) (fun _ => False) σ ρ ∧
      ρ.putPart t.slot { σ.part t.slot with data } = τ ∧
      ((σ.part t.slot).kind = some .interaction ∧
          (∃ blocks b, t.components.mapM (fun c => columnBlock (ρ.component c.slot)) = .ok blocks ∧
            Block.interactAll blocks = .ok b ∧ data = some b) ∨
        (σ.part t.slot).kind ≠ some .interaction ∧
          ∃ c cs, t.components = c :: cs ∧ data = (ρ.component c.slot).value) := by
  obtain ⟨_, ρ, loop, rest⟩ := ends_bind.mp ends
  have changes : Changes (SlotOf t.components) (fun _ => False) σ ρ :=
    relates_forIn_setData (fun c mem _ => confined_step_of_mem mem _) σ _ ρ loop
  have runs := runsAll_of_forIn (f := fun c => do
    step c (Component.setData c.atom (← encoding.flag c.name)))
    (by simpa only [bind_assoc] using loop)
  have rest := ends_get_bind.mp rest
  rw [← changes.part t.slot id]
  split at rest
  next joint =>
    obtain ⟨blocks, mapped, rest⟩ := ends_lift_bind.mp rest
    obtain ⟨b, multiplied, rest⟩ := ends_lift_bind.mp rest
    exact ⟨ρ, some b, runs, changes, ends_setPart.mp rest,
      .inl ⟨joint, blocks, b, mapped, multiplied, rfl⟩⟩
  next other =>
    split at rest
    next => exact (ends_throw rest).elim
    next c cs shape =>
      exact ⟨ρ, _, runs, changes, ends_setPart.mp rest, .inr ⟨other, c, cs, shape, rfl⟩⟩

end Term

/-- The slot of the part that the effect is. -/
def Effect.Own (e : Effect) (s : Nat) : Prop := s ∈ e.slot?

lemma Effect.data?_of_eq (same : ∀ s ∈ e.slot?, τ.part s = σ.part s) : e.data? τ = e.data? σ := by
  cases e with
  | negated => rfl
  | intercept slot => simp [data?, same slot rfl]
  | term t => simp [data?, same t.slot rfl]

lemma Effect.confined_setKind (e : Effect) (source : DataSource) (scope : Scope Value) :
    Confined (SlotOf e.held) e.Own (e.setKind source scope) :=
  Effect.relates_setKind (fun _ mem => confined_step_of_mem mem _)
    fun _ own _ => confined_setPart_of_mem own _

lemma Effect.confined_setData (e : Effect) (encoding : Encoding) :
    Confined (SlotOf e.held) e.Own (e.setData encoding) :=
  Effect.relates_setData (fun _ mem _ => confined_step_of_mem mem _)
    fun _ own _ => confined_setPart_of_mem own _

namespace GroupTerm

variable (g : GroupTerm)

section Cases

variable {g : GroupTerm}

/-- The components of the factor are typed and then made categoric, one after the other, and the
expression is typed after them. -/
lemma setKind_cases (ends : Ends (g.setKind source scope) σ () τ) : ∃ t ρ₁ ρ₂, g.factor = .term t ∧
    RunsAll (fun c => do
        step c (Component.setKind c.atom source scope "GroupSpecificTerm")
        step c (modify ({ · with kind := some .categoric }))) t.components σ ρ₁ ∧
      Changes (SlotOf t.components) (fun _ => False) σ ρ₁ ∧
      Ends (setPart t.slot ({ · with
        kind := some (if 1 < t.components.length then .interaction else .categoric) })) ρ₁ () ρ₂ ∧
      Ends (g.expr.setKind source scope) ρ₂ () τ := by
  unfold setKind at ends
  split at ends
  next t shape =>
    obtain ⟨_, ρ₁, loop, ends⟩ := ends_bind.mp ends
    obtain ⟨_, ρ₂, typed, ends⟩ := ends_bind.mp ends
    have runs := runsAll_of_forIn (f := fun c => do
      step c (Component.setKind c.atom source scope "GroupSpecificTerm")
      step c (modify ({ · with kind := some .categoric })))
      (by simpa only [bind_assoc] using loop)
    refine ⟨t, ρ₁, ρ₂, shape, runs, ?_, typed, ends⟩
    refine runs.invariant (P := Changes _ _ σ) ?_ (Changes.refl σ)
    intro c mem r r' step before
    have within (action : Component.Step Unit) : Confined (SlotOf t.components) (fun _ => False)
        (Fit.step c action) := confined_step_of_mem mem action
    exact before.trans ((within _).bind (fun _ => within _) r _ r' step)
  next => exact (ends_throw ends).elim

/-- The expression takes its data and then the factor. The data of both are multiplied. -/
lemma setData_cases (ends : Ends (g.setData encoding) σ () τ) :
    ∃ t ρ₁ ρ₂ ρ₃ groups x j data, g.factor = .term t ∧ Ends (g.expr.setData encoding) σ () ρ₁ ∧
      Ends (g.factor.setData (.uniform true)) ρ₁ () ρ₂ ∧ groupsOf t ρ₂ = .ok groups ∧
      Ends (setPart g.slot ({ · with groups := some groups })) ρ₂ () ρ₃ ∧
      g.expr.data? ρ₃ = .ok (some x) ∧ g.factor.data? ρ₃ = .ok (some j) ∧
      Block.grouped j x = .ok data ∧
      Ends (setPart g.slot ({ · with data := some data, kind := g.expr.kind ρ₃ })) ρ₃ () τ := by
  obtain ⟨_, ρ₁, first, ends⟩ := ends_bind.mp ends
  obtain ⟨_, ρ₂, second, ends⟩ := ends_bind.mp ends
  split at ends
  next t shape =>
    obtain ⟨groups, found, ends⟩ := ends_withStore_bind.mp ends
    obtain ⟨_, ρ₃, third, ends⟩ := ends_bind.mp ends
    obtain ⟨x, left, ends⟩ := ends_withStore_bind.mp ends
    obtain ⟨j, right, ends⟩ := ends_withStore_bind.mp ends
    obtain ⟨x', given, ends⟩ := ends_lift_bind.mp ends
    obtain ⟨j', given', ends⟩ := ends_lift_bind.mp ends
    obtain ⟨data, grouped, ends⟩ := ends_lift_bind.mp ends
    have last := ends_get_bind.mp ends
    obtain rfl : x = some x' := by cases x <;> simp_all [blockOf]
    obtain rfl : j = some j' := by cases j <;> simp_all [blockOf]
    exact ⟨t, ρ₁, ρ₂, ρ₃, groups, x', j', data, shape, first, second, found, third, left, right,
      grouped, last⟩
  next => exact (ends_throw ends).elim

end Cases

lemma confined_setKind (source : DataSource) (scope : Scope Value) :
    Confined (SlotOf g.held) (· ∈ g.slots) (g.setKind source scope) :=
  GroupTerm.relates_setKind (fun _ mem _ => confined_step_of_mem mem _)
    (fun _ mem => confined_step_of_mem mem _) fun _ own _ => confined_setPart_of_mem own _

lemma confined_setData (encoding : Encoding) :
    Confined (SlotOf g.held) (· ∈ g.slots) (g.setData encoding) :=
  GroupTerm.relates_setData (fun _ mem _ => confined_step_of_mem mem _)
    (fun _ own _ => confined_setPart_of_mem own _)
    fun _ => confined_setPart_of_mem (by simp [slots]) _

end GroupTerm

lemma ResponseMatrix.confined_evaluate (t : Term) (source : DataSource) (scope : Scope Value) :
    Confined (SlotOf t.components) (· = t.slot) (ResponseMatrix.evaluate t source scope) := by
  have evaluates : Confined (SlotOf t.components) (Effect.term t).Own
      (ResponseMatrix.evaluate t source scope) := by
    refine ((Effect.term t).confined_setKind source scope).bind fun _ => ?_
    refine ((Effect.term t).confined_setData _).bind fun _ => ?_
    exact relates_get.bind fun _ => (relates_withStore _).bind fun _ => relates_pure _
  exact evaluates.mono (fun _ h => h) fun s own => (Option.mem_some_iff.mp own).symm

/-!
### What fitting leaves as it is

A computation keeps a view if it returns with the same slots and what the view picks out is still
the same. Finding out kinds keeps the response; taking numbers keeps kinds and columns.
-/

open Component

variable {γ δ : Type}

/-! ### Steps of a component -/

/-- What is picked out of two states of a component is the same. -/
def Alike (look : State → γ) (st st' : State) : Prop := look st' = look st

instance (look : State → γ) : IsPreorder State (Alike look) where
  refl _ := rfl
  trans _ _ _ first second := Eq.trans second first

/-- A step of a component that leaves what is picked out of its state. -/
def Leaves (look : State → γ) (x : Step α) : Prop := Relates (Alike look) x

section Steps

variable {look : State → γ}

lemma leaves_modify (same : ∀ st, look (change st) = look st) :
    Leaves look (modify change : Step PUnit) := by
  intro st u st' ends
  obtain rfl := ends_modify.mp ends
  exact same st

end Steps

/-! ### Computations over the store -/

/-- What is picked out of components and parts. -/
structure View (γ δ : Type) where
  component : State → γ
  part : Part.State → δ

/-- Two stores with the same slots in which the view is the same, at most some parts apart. -/
structure Kept (view : View γ δ) (except : Nat → Prop) (σ τ : Store) : Prop where
  componentsSize : τ.components.size = σ.components.size
  partsSize : τ.parts.size = σ.parts.size
  component : ∀ s, view.component (τ.component s) = view.component (σ.component s)
  part : ∀ s, ¬ except s → view.part (τ.part s) = view.part (σ.part s)

/-- A computation that keeps the view when it returns. -/
def Keeping (view : View γ δ) (except : Nat → Prop) (x : Fit α) : Prop :=
  Relates (Kept view except) x

section Rules

variable {view : View γ δ} {except : Nat → Prop}

lemma Kept.refl (σ : Store) : Kept view except σ σ :=
  ⟨rfl, rfl, fun _ => rfl, fun _ _ => rfl⟩

lemma Kept.trans (first : Kept view except σ ρ) (second : Kept view except ρ τ) :
    Kept view except σ τ where
  componentsSize := second.componentsSize.trans first.componentsSize
  partsSize := second.partsSize.trans first.partsSize
  component s := (second.component s).trans (first.component s)
  part s outside := (second.part s outside).trans (first.part s outside)

instance : IsPreorder Store (Kept view except) where
  refl := Kept.refl
  trans _ _ _ := Kept.trans

lemma keeping_setPart {slot : Nat}
    (same : except slot ∨ ∀ st, view.part (change st) = view.part st) :
    Keeping view except (Fit.setPart slot change) := by
  intro σ a τ ends
  obtain rfl := ends_setPart.mp ends
  refine ⟨rfl, by simp [Store.putPart], fun _ => rfl, fun s outside => ?_⟩
  by_cases own : s = slot
  · subst own
    rcases same with excepted | same
    · exact absurd excepted outside
    -- a slot that does not exist is not written at all
    · by_cases bound : s < σ.parts.size
      · rw [σ.putPart_self s _ bound, same]
      · simp [Store.putPart, Store.part, bound]
  · rw [σ.putPart_of_ne slot s _ own]

lemma Leaves.step {action : Step α} (leaves : Leaves view.component action)
    (c : Component) : Keeping view except (Fit.step c action) := by
  intro σ a τ ends
  obtain ⟨st, stepped, rfl⟩ := ends_step.mp ends
  refine ⟨by simp [Store.putComponent], rfl, fun s => ?_, fun _ _ => rfl⟩
  by_cases own : s = c.slot
  · subst own
    by_cases bound : c.slot < σ.components.size
    · rw [σ.putComponent_self c.slot st bound, leaves _ a st stepped]
    · simp [Store.putComponent, Store.component, bound]
  · rw [σ.putComponent_of_ne c.slot s st own]

end Rules

/-! ### Roles -/

/-- Which components are the response. -/
def View.roles : View Bool Unit := ⟨(·.isResponse), fun _ => ()⟩

/-- Two stores with the same slots, in which the same components are the response. -/
abbrev SameRoles : Store → Store → Prop := Kept View.roles fun _ => False

lemma leaves_evaluate (e : CallExpr) (source : DataSource) :
    Leaves View.roles.component (evaluate e source) := by
  intro st x st' ends
  have ends := ends_get_bind.mp ends
  obtain ⟨_, _, changed, ends⟩ := ends_bind.mp ends
  obtain rfl := ends_modify.mp changed
  obtain ⟨_, rfl⟩ := ends_mk.mp ends
  rfl

lemma leaves_setVariableKind (name : Literal) (source : DataSource) :
    Leaves View.roles.component (setVariableKind name source) := by
  refine (relates_lift _).bind fun x => ?_
  dsimp only
  split
  · exact (relates_pure _).bind fun _ => leaves_modify fun _ => by rfl
  · split
    · exact (relates_pure _).bind fun _ => leaves_modify fun _ => by rfl
    · exact (relates_throw _).bind fun _ => leaves_modify fun _ => by rfl

lemma leaves_setCallKind (e : CallExpr) (source : DataSource) (scope : Scope Value) :
    Leaves View.roles.component (setCallKind e source scope) := by
  have settled (kind : Kind) (x : Value) : Leaves View.roles.component (do
      (modify ({ · with kind := some kind }) : Step Unit)
      let x ← (pure x : Step Value)
      modify ({ · with column := x })) :=
    (leaves_modify fun _ => by rfl).bind fun _ => (relates_pure x).bind fun x =>
      leaves_modify fun _ => by rfl
  refine (leaves_modify fun _ => by rfl).bind fun _ => ?_
  refine (leaves_evaluate e source).bind fun x => ?_
  dsimp only
  split
  · exact settled .numeric x
  · split
    · exact settled .categoric x
    · split
      · exact settled .categoric _
      · -- an offset asks for the number of rows before it is kept
        refine (leaves_modify fun _ => by rfl).bind fun _ => ?_
        refine (relates_lift _).bind fun n => ?_
        exact (relates_pure _).bind fun _ => leaves_modify fun _ => by rfl
      · exact settled .proportion _
      · exact (relates_throw _).bind fun _ => leaves_modify fun _ => by rfl

lemma leaves_setKind (atom : Atom) (source : DataSource) (scope : Scope Value)
    (owner : String) : Leaves View.roles.component (setKind atom source scope owner) := by
  cases atom with
  | «variable» name r => exact leaves_setVariableKind name source
  | call e => exact leaves_setCallKind e source scope
  | stray s => exact relates_throw _

lemma Effect.keeping_setKind (e : Effect) (source : DataSource) (scope : Scope Value) :
    Keeping View.roles (fun _ => False) (e.setKind source scope) :=
  Effect.relates_setKind (fun c _ => (leaves_setKind _ _ _ _).step c)
    fun _ _ _ => keeping_setPart (.inr fun _ => by rfl)

lemma GroupTerm.keeping_setKind (g : GroupTerm) (source : DataSource) (scope : Scope Value) :
    Keeping View.roles (fun _ => False) (g.setKind source scope) :=
  GroupTerm.relates_setKind (fun c _ _ => (leaves_setKind _ _ _ _).step c)
    (fun c _ => (leaves_modify fun _ => by rfl).step c)
    fun _ _ _ => keeping_setPart (.inr fun _ => by rfl)

/-! ### Types -/

/-- The kinds and columns of components, with their roles, and the kinds and heights of parts. -/
def View.types : View (Option Kind × Value × Bool) (Option Kind × Option Nat) where
  component st := (st.kind, st.column, st.isResponse)
  part st := (st.kind, st.height)

lemma leaves_setNumeric (atom : Atom) (x : Value) :
    Leaves View.types.component (setNumeric atom x) := by
  unfold setNumeric
  split
  · exact leaves_modify fun _ => by rfl
  · exact leaves_modify fun _ => by rfl
  · exact relates_throw _

lemma leaves_setLevels (x : Value) (flag : Datum) :
    Leaves View.types.component (setLevels x flag) := by
  refine (relates_lift _).bind fun _ => (leaves_modify fun _ => by rfl).bind fun _ => ?_
  refine (relates_lift _).bind fun _ => (leaves_modify fun _ => by rfl).bind fun _ => ?_
  exact (relates_lift _).bind fun _ => (relates_lift _).bind fun _ => leaves_modify fun _ => by rfl

lemma leaves_setIndicator (x : Value) (reference : Literal) (flag : Datum) :
    Leaves View.types.component (setIndicator x reference flag) := by
  refine (relates_lift _).bind fun _ => (leaves_modify fun _ => by rfl).bind fun _ => ?_
  exact (relates_lift _).bind fun _ => (relates_lift _).bind fun _ => leaves_modify fun _ => by rfl

lemma leaves_setBox (box : CategoricalBox) (flag : Datum) :
    Leaves View.types.component (setBox box flag) := by
  refine (relates_lift _).bind fun _ => (leaves_modify fun _ => by rfl).bind fun _ => ?_
  refine (relates_lift _).bind fun _ => (leaves_modify fun _ => by rfl).bind fun _ => ?_
  exact (relates_lift _).bind fun _ => leaves_modify fun _ => by rfl

lemma leaves_setVariableData (atom : Atom) (reference : Option Literal) (flag : Datum) :
    Leaves View.types.component (setVariableData atom reference flag) := by
  refine relates_get.bind fun st => ?_
  split
  · exact relates_throw _
  · exact leaves_setNumeric _ _
  · split
    · exact leaves_setIndicator _ _ _
    · exact leaves_setLevels _ _
  · exact relates_throw _

lemma leaves_setCallData (atom : Atom) (flag : Datum) :
    Leaves View.types.component (setCallData atom flag) := by
  refine relates_get.bind fun st => ?_
  have special : Leaves View.types.component (do
      let b ← (specialBlock st.column : Except Fault Block)
      (modify ({ · with value := some b }) : Step Unit)) :=
    (relates_lift _).bind fun _ => leaves_modify fun _ => by rfl
  split
  · exact relates_throw _
  · exact leaves_setNumeric _ _
  · split
    · exact leaves_setBox _ _
    · exact leaves_setLevels _ _
  · split
    · exact (relates_throw _).bind fun _ => special
    · exact special
  · split
    · exact special
    · exact (relates_throw _).bind fun _ => special
  · exact relates_throw _

lemma leaves_setData (atom : Atom) (flag : Datum) :
    Leaves View.types.component (setData atom flag) := by
  cases atom with
  | «variable» name r => exact leaves_setVariableData _ r flag
  | call e => exact leaves_setCallData _ flag
  | stray s => exact relates_throw _

section Types

variable {except : Nat → Prop}

lemma Effect.keeping_setData (e : Effect) (encoding : Encoding) :
    Keeping View.types except (e.setData encoding) :=
  Effect.relates_setData (fun c _ _ => (leaves_setData _ _).step c)
    fun _ _ _ => keeping_setPart (.inr fun _ => by rfl)

/-- A group-specific term takes the kind of its expression with its data. -/
lemma GroupTerm.keeping_setData (g : GroupTerm) (encoding : Encoding) (own : except g.slot) :
    Keeping View.types except (g.setData encoding) :=
  GroupTerm.relates_setData (fun c _ _ => (leaves_setData _ _).step c)
    (fun _ _ _ => keeping_setPart (.inr fun _ => by rfl)) fun _ => keeping_setPart (.inl own)

end Types

end ModelFormula
